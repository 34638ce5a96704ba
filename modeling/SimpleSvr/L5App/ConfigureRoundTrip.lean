import SimpleSvr.L5App.Configure
import SimpleSvr.L4Routing.LoadBalanceLoad

/-!
# Reading back a rendered configuration

An `Item` is a line of a configuration file with its blanks and its comment;
`text` writes the lines. `scan_render`: the reader finds in a line what it says,
`read_text`: and in a text the map that the lines render, in any order, with
whatever blank lines, comments and earlier assignments they hold. The one thing
that it does not skip is a blank inside the brackets of a header (`Tight`).
-/
namespace SimpleSvr.L5.Configure
open SimpleSvr.L4.LoadBalance (isSpace isDigit ne_hash_of_isSpace)

/-! ## Renderings -/

inductive Item where
  | blank (lead comment : Bytes)
  | header (lead gap₁ name gap₂ trail comment : Bytes)
  | assignment (lead sKey gap₁ gap₂ sVal trail comment : Bytes)

def Item.render : Item → Bytes
  | .blank lead comment => lead ++ comment
  | .header lead gap₁ name gap₂ trail comment => lead ++ (91 :: (gap₁ ++ (name ++ (gap₂ ++ [93]))) ++ trail) ++ comment
  | .assignment lead sKey gap₁ gap₂ sVal trail comment =>
    lead ++ (sKey ++ (gap₁ ++ 61 :: (gap₂ ++ sVal)) ++ trail) ++ comment

/-- What the line says. -/
def Item.line : Item → Line
  | .blank _ _ => .other
  | .header _ _ name _ _ _ => .block name
  | .assignment _ sKey _ _ sVal _ _ => .keyVal sKey sVal

def Blanks (s : Bytes) : Prop := ∀ c ∈ s, isSpace c = true ∧ c ≠ 10

/-- Nothing, or a `#` and text up to the end of the line. -/
structure Comment (s : Bytes) : Prop where
  hash : s = [] ∨ ∃ words, s = 35 :: words
  clean : ∀ c ∈ s, c ≠ 10 ∧ c ≠ 0

structure IsKey (s : Bytes) : Prop where
  nonempty : s ≠ []
  trimmed : Trimmed isSpace s
  clean : ∀ c ∈ s, c ≠ 61 ∧ c ≠ 35 ∧ c ≠ 10 ∧ c ≠ 0

structure IsValue (s : Bytes) : Prop where
  trimmed : Trimmed isSpace s
  clean : ∀ c ∈ s, c ≠ 35 ∧ c ≠ 10 ∧ c ≠ 0

def Item.Valid : Item → Prop
  | .blank lead comment => Blanks lead ∧ Comment comment
  | .header lead gap₁ name gap₂ trail comment =>
    Blanks lead ∧ Blanks gap₁ ∧ name ≠ [] ∧ (∀ c ∈ name, isName c = true) ∧ Blanks gap₂ ∧ Blanks trail ∧
      Comment comment
  | .assignment lead sKey gap₁ gap₂ sVal trail comment =>
    Blanks lead ∧ IsKey sKey ∧ Blanks gap₁ ∧ Blanks gap₂ ∧ IsValue sVal ∧ Blanks trail ∧ Comment comment

/-- No blanks inside the brackets of a header. -/
def Item.Tight : Item → Prop
  | .header _ gap₁ _ gap₂ _ _ => gap₁ = [] ∧ gap₂ = []
  | _ => True

def text (items : List Item) : Bytes := [10].intercalate (items.map Item.render)

/-- The sections of the map are those of the headers; the value of a key is the last that is assigned
to it under its section. -/
structure Renders (items : List Item) (m : ConfigMap) : Prop where
  sections : ∀ s, (m.find s).isSome = true ↔ Line.block s ∈ items.map Item.line
  values : ∀ s k, value m s k = lastValue (assignments [] (items.map Item.line)) s k

/-! ## One line -/

theorem Blanks.spaces {s : Bytes} (h : Blanks s) : ∀ c ∈ s, isSpace c = true := fun c hc => (h c hc).1

theorem matchBlock_header {name : Bytes} (h0 : name ≠ []) (h : ∀ c ∈ name, isName c = true) :
    matchBlock (91 :: (name ++ [93])) = some name := by
  have hspan : (name ++ [93]).span isName = (name, [93]) := span_append h (stops_cons rfl)
  unfold matchBlock
  simp only [hspan]
  exact if_pos ⟨h0, trivial⟩

/-- A header holds no `=`. -/
theorem matchBlock_of_mem {s : Bytes} (h : 61 ∈ s) : matchBlock s = none := by
  unfold matchBlock
  split
  · next s =>
    cases e : s.span isName with | mk name rest =>
    obtain ⟨rfl, hname, -⟩ := span_eq e
    refine if_neg ?_
    rintro ⟨-, rfl⟩
    simp only [List.mem_cons, List.mem_append, List.not_mem_nil, or_false] at h
    rcases h with h | h | h
    · exact absurd h (by decide)
    · exact absurd (hname 61 h) (by decide)
    · exact absurd h (by decide)
  · rfl

theorem matchKeyVal_eq {key val : Bytes} (h0 : key ≠ []) (h : ∀ c ∈ key, c ≠ 61) :
    matchKeyVal (key ++ 61 :: val) = some (key, val) := by
  have hspan : (key ++ 61 :: val).span (· != 61) = (key, 61 :: val) :=
    span_append (fun c hc => bne_iff_ne.mpr (h c hc)) (stops_cons rfl)
  unfold matchKeyVal
  simp only [hspan]
  exact if_pos h0

/-- What is left of a line: the words between its blanks. -/
theorem words_eq {lead s trail comment : Bytes} (hlead : Blanks lead) (hs : Trimmed isSpace s)
    (hhash : ∀ c ∈ s, c ≠ 35) (htrail : Blanks trail) (hcomment : Comment comment) :
    trimBy isSpace ((lead ++ (s ++ trail) ++ comment).takeWhile (· != 35)) = s :=
  trimBy_takeWhile (fun _ => ne_hash_of_isSpace) hlead.spaces hs (fun c hc => bne_iff_ne.mpr (hhash c hc))
    htrail.spaces (stops_bne_iff.mpr hcomment.hash)

theorem ne_of_isSpace {c d : UInt8} (h : isSpace c = true) (hd : isSpace d = false) : c ≠ d := by
  rintro rfl
  rw [h] at hd
  cases hd

theorem ne_of_isName {c d : UInt8} (h : isName c = true) (hd : isName d = false) : c ≠ d := by
  rintro rfl
  rw [h] at hd
  cases hd

/-- What the reader makes of an assignment whose text `val` does not end with a blank. -/
theorem scan_words {lead sKey gap₁ val trail comment : Bytes} (hlead : Blanks lead) (hkey : IsKey sKey)
    (hgap₁ : Blanks gap₁) (hhash : ∀ c ∈ val, c ≠ 35) (hend : Stops isSpace val.reverse) (htrail : Blanks trail)
    (hcomment : Comment comment) :
    scan (lead ++ (sKey ++ gap₁ ++ 61 :: val ++ trail) ++ comment) = .keyVal sKey (trimBy isSpace val) := by
  have hleft : ∀ c ∈ sKey ++ gap₁, c ≠ 61 ∧ c ≠ 35 := by
    intro c hc
    rcases List.mem_append.mp hc with hc | hc
    · exact ⟨(hkey.clean c hc).1, (hkey.clean c hc).2.1⟩
    · exact ⟨ne_of_isSpace (hgap₁ c hc).1 rfl, ne_of_isSpace (hgap₁ c hc).1 rfl⟩
  have hclean : ∀ c ∈ sKey ++ gap₁ ++ 61 :: val, c ≠ 35 := by
    intro c hc
    rcases List.mem_append.mp hc with hc | hc
    · exact (hleft c hc).2
    · rcases List.mem_cons.mp hc with rfl | hc
      · decide
      · exact hhash c hc
  have htrimmed : Trimmed isSpace (sKey ++ gap₁ ++ 61 :: val) := by
    constructor
    · rw [List.append_assoc]
      exact hkey.trimmed.1.append hkey.nonempty _
    · rw [List.reverse_append, List.reverse_cons]
      -- it ends with `val` or, where that is empty, with the `=`
      by_cases h0 : val.reverse = []
      · rw [h0]
        exact stops_cons rfl
      · exact (hend.append h0 _).append (List.append_ne_nil_of_left_ne_nil h0 _) _
  have hwords := words_eq hlead htrimmed hclean htrail hcomment
  have hne : sKey ++ gap₁ ≠ [] := List.append_ne_nil_of_left_ne_nil hkey.nonempty _
  have htrimKey : trimBy isSpace (sKey ++ gap₁) = sKey :=
    @trimBy_around UInt8 isSpace [] gap₁ sKey nofun hkey.trimmed hgap₁.spaces
  rw [scan]
  simp only [hwords]
  rw [matchBlock_of_mem (by simp), matchKeyVal_eq hne fun c hc => (hleft c hc).1]
  simp only [htrimKey]

theorem scan_assignment {lead sKey gap₁ gap₂ sVal trail comment : Bytes} (hlead : Blanks lead) (hkey : IsKey sKey)
    (hgap₁ : Blanks gap₁) (hgap₂ : Blanks gap₂) (hval : IsValue sVal) (htrail : Blanks trail)
    (hcomment : Comment comment) :
    scan (lead ++ (sKey ++ (gap₁ ++ 61 :: (gap₂ ++ sVal)) ++ trail) ++ comment) = .keyVal sKey sVal := by
  by_cases h0 : sVal = []
  · -- the blanks before the value are blanks at the end
    subst h0
    have htail : Blanks (gap₂ ++ trail) := fun c hc => (List.mem_append.mp hc).elim (hgap₂ c) (htrail c)
    have hscan := @scan_words lead sKey gap₁ [] _ _ hlead hkey hgap₁ nofun stops_nil htail hcomment
    have hline : sKey ++ (gap₁ ++ 61 :: (gap₂ ++ [])) ++ trail = sKey ++ gap₁ ++ [61] ++ (gap₂ ++ trail) := by
      simp
    rw [hline]
    exact hscan
  · have hhash : ∀ c ∈ gap₂ ++ sVal, c ≠ 35 := by
      intro c hc
      rcases List.mem_append.mp hc with hc | hc
      · exact ne_of_isSpace (hgap₂ c hc).1 rfl
      · exact (hval.clean c hc).1
    have hend : Stops isSpace (gap₂ ++ sVal).reverse := by
      rw [List.reverse_append]
      exact hval.trimmed.2.append (fun hn => h0 (List.reverse_eq_nil_iff.mp hn)) _
    have hscan := scan_words hlead hkey hgap₁ hhash hend htrail hcomment
    have htrimVal := @trimBy_around UInt8 isSpace gap₂ [] sVal hgap₂.spaces hval.trimmed nofun
    rw [List.append_nil] at htrimVal
    rw [← List.append_assoc sKey, hscan, htrimVal]

/-- The reader finds in a line what it says. -/
theorem scan_render {item : Item} (hv : item.Valid) (ht : item.Tight) : scan item.render = item.line := by
  cases item with
  | blank lead comment =>
    have hnil : Blanks [] := nofun
    have hwords := words_eq hv.1 ⟨stops_nil, stops_nil⟩ (nofun : ∀ c ∈ ([] : Bytes), c ≠ 35) hnil hv.2
    have hline : (Item.blank lead comment).render = lead ++ ([] ++ []) ++ comment := by
      rw [Item.render, List.append_nil, List.append_nil]
    rw [scan, hline]
    simp only [hwords]
    rfl
  | header lead gap₁ name gap₂ trail comment =>
    obtain ⟨hlead, -, h0, hname, -, htrail, hcomment⟩ := hv
    obtain ⟨rfl, rfl⟩ := ht
    have hends : Trimmed isSpace (91 :: (name ++ [93])) := by
      refine ⟨stops_cons rfl, ?_⟩
      rw [List.reverse_cons, List.reverse_append]
      exact stops_cons rfl
    have hhash : ∀ c ∈ 91 :: (name ++ [93]), c ≠ 35 := by
      intro c hc
      simp only [List.mem_cons, List.mem_append, List.not_mem_nil, or_false] at hc
      rcases hc with rfl | hc | rfl
      · decide
      · exact ne_of_isName (hname c hc) rfl
      · decide
    have hwords := words_eq hlead hends hhash htrail hcomment
    have hline : (Item.header lead [] name [] trail comment).render =
        lead ++ (91 :: (name ++ [93]) ++ trail) ++ comment := rfl
    rw [scan, hline]
    simp only [hwords]
    rw [matchBlock_header h0 hname]
    rfl
  | assignment lead sKey gap₁ gap₂ sVal trail comment =>
    obtain ⟨hlead, hkey, hgap₁, hgap₂, hval, htrail, hcomment⟩ := hv
    exact scan_assignment hlead hkey hgap₁ hgap₂ hval htrail hcomment

/-! ## The text -/

theorem Blanks.clean {s : Bytes} (h : Blanks s) : ∀ c ∈ s, c ≠ 10 ∧ c ≠ 0 :=
  fun c hc => ⟨(h c hc).2, ne_of_isSpace (h c hc).1 rfl⟩

/-- A rendered line is one line of text. -/
theorem render_clean {item : Item} (hv : item.Valid) : ∀ c ∈ item.render, c ≠ 10 ∧ c ≠ 0 := by
  intro c hc
  cases item with
  | blank lead comment =>
    rcases List.mem_append.mp hc with hc | hc
    · exact hv.1.clean c hc
    · exact hv.2.clean c hc
  | header lead gap₁ name gap₂ trail comment =>
    obtain ⟨hlead, hgap₁, -, hname, hgap₂, htrail, hcomment⟩ := hv
    simp only [Item.render, List.mem_append, List.mem_cons, List.not_mem_nil, or_false] at hc
    rcases hc with (hc | (rfl | hc | hc | hc | rfl) | hc) | hc
    · exact hlead.clean c hc
    · decide
    · exact hgap₁.clean c hc
    · exact ⟨ne_of_isName (hname c hc) rfl, ne_of_isName (hname c hc) rfl⟩
    · exact hgap₂.clean c hc
    · decide
    · exact htrail.clean c hc
    · exact hcomment.clean c hc
  | assignment lead sKey gap₁ gap₂ sVal trail comment =>
    obtain ⟨hlead, hkey, hgap₁, hgap₂, hval, htrail, hcomment⟩ := hv
    simp only [Item.render, List.mem_append, List.mem_cons] at hc
    rcases hc with (hc | (hc | hc | rfl | hc | hc) | hc) | hc
    · exact hlead.clean c hc
    · exact (hkey.clean c hc).2.2
    · exact hgap₁.clean c hc
    · decide
    · exact hgap₂.clean c hc
    · exact (hval.clean c hc).2
    · exact htrail.clean c hc
    · exact hcomment.clean c hc

/-- The lines of the text are the lines that were written. -/
theorem scanAll_text {items : List Item} (hne : items ≠ []) (hv : ∀ item ∈ items, item.Valid)
    (ht : ∀ item ∈ items, item.Tight) : scanAll (text items) = items.map Item.line := by
  have hclean : ∀ l ∈ items.map Item.render, ∀ c ∈ l, c ≠ 10 ∧ c ≠ 0 := by
    intro l hl
    obtain ⟨item, hitem, rfl⟩ := List.mem_map.mp hl
    exact render_clean (hv item hitem)
  have hnul : ∀ c ∈ text items, (c != 0) = true :=
    forall_mem_intercalate (by decide) fun l hl c hc => bne_iff_ne.mpr (hclean l hl c hc).2
  have hsplit : (text items).splitOn 10 = items.map Item.render :=
    List.splitOn_intercalate 10 (fun l hl hc => (hclean l hl 10 hc).1 rfl) fun hn => hne (List.map_eq_nil_iff.mp hn)
  rw [scanAll, List.takeWhile_eq_self_iff.mpr hnul, hsplit, List.map_map]
  exact List.map_congr_left fun item hitem => scan_render (hv item hitem) (ht item hitem)

/-- Reading a rendering of a map into an empty map yields the map. -/
theorem read_text {items : List Item} {m : ConfigMap} (hv : ∀ item ∈ items, item.Valid)
    (ht : ∀ item ∈ items, item.Tight) (hm : Renders items m) :
    ReadINIFile (some (text items)) .empty = (0, m) := by
  obtain ⟨hvalues, hsections⟩ := read_spec (text items) .empty
  have hsame : (ReadINIFile (some (text items)) .empty).2 = m := by
    by_cases hne : items = []
    · subst hne
      apply ext_value
      · intro s
        rw [Bool.eq_iff_iff, hm.sections s]
        exact iff_of_false nofun nofun
      · intro s k
        rw [hm.values s k]
        rfl
    · rw [scanAll_text hne hv ht] at hvalues hsections
      apply ext_value
      · intro s
        rw [Bool.eq_iff_iff, hsections s, hm.sections s]
        exact or_iff_right nofun
      · intro s k
        rw [hvalues s k, hm.values s k]
        exact Option.or_none
  exact Prod.ext rfl hsame

/-- Any lines render a map. -/
theorem renders_lines (items : List Item) :
    Renders items ((items.map Item.line).foldl readLine ([], .empty)).2 where
  sections s := (foldl_sections _ [] .empty (fun h => absurd rfl h) s).trans (or_iff_right nofun)
  values s k := (foldl_values _ [] .empty s k).trans Option.or_none

/-- `[a]`, `#`, `k=1` and `k=2`. -/
def sample : List Item :=
  [.header [] [] [97] [] [] [], .blank [] [35], .assignment [] [107] [] [] [49] [] [],
    .assignment [] [107] [] [] [50] [] []]

theorem isKey_char {c : UInt8} (h : isName c = true) (hs : isSpace c = false) : IsKey [c] where
  nonempty := List.cons_ne_nil _ _
  trimmed := ⟨stops_cons hs, stops_cons hs⟩
  clean := List.forall_mem_singleton.mpr
    ⟨ne_of_isName h rfl, ne_of_isName h rfl, ne_of_isName h rfl, ne_of_isName h rfl⟩

theorem valid_char {c d : UInt8} (hc : isName c = true) (hsc : isSpace c = false) (hd : isName d = true)
    (hsd : isSpace d = false) : (Item.assignment [] [c] [] [] [d] [] []).Valid := by
  have hnil : Comment [] := ⟨.inl rfl, nofun⟩
  have hval := isKey_char hd hsd
  exact ⟨nofun, isKey_char hc hsc, nofun, nofun, ⟨hval.trimmed, fun e he => (hval.clean e he).2⟩, nofun, hnil⟩

theorem valid_sample : ∀ item ∈ sample, item.Valid := by
  have hnil : Comment [] := ⟨.inl rfl, nofun⟩
  have hhash : Comment [35] := ⟨.inr ⟨[], rfl⟩, List.forall_mem_singleton.mpr (by decide)⟩
  simp only [sample, List.forall_mem_cons]
  refine ⟨⟨nofun, nofun, List.cons_ne_nil _ _, List.forall_mem_singleton.mpr rfl, nofun, nofun, hnil⟩,
    ⟨nofun, hhash⟩, valid_char rfl rfl rfl rfl, valid_char rfl rfl rfl rfl, nofun⟩

/-- The second value stays. -/
theorem read_text_sample :
    ∃ m, ReadINIFile (some (text sample)) .empty = (0, m) ∧ value m [97] [107] = some [50] := by
  have ht : ∀ item ∈ sample, item.Tight := by
    simp only [sample, List.forall_mem_cons]
    exact ⟨⟨rfl, rfl⟩, trivial, trivial, trivial, nofun⟩
  exact ⟨_, read_text valid_sample ht (renders_lines sample), by decide⟩

/-- `[ a ]` is not taken for a header, and the assignment under it is dropped. -/
theorem spaced_header : ∃ items m, (∀ item ∈ items, Item.Valid item) ∧ Renders items m ∧
    ReadINIFile (some (text items)) .empty ≠ (0, m) := by
  have hblank : Blanks [32] := List.forall_mem_singleton.mpr (by decide)
  have hnil : Comment [] := ⟨.inl rfl, nofun⟩
  refine ⟨[.header [] [32] [97] [32] [] [], .assignment [] [107] [] [] [118] [] []], _, ?_, renders_lines _, ?_⟩
  · simp only [List.forall_mem_cons]
    exact ⟨⟨nofun, hblank, List.cons_ne_nil _ _, List.forall_mem_singleton.mpr rfl, hblank, nofun, hnil⟩,
      valid_char rfl rfl rfl rfl, nofun⟩
  · intro h
    have hlen := congrArg (fun r => r.2.entries.length) h
    exact absurd hlen (by decide)

end SimpleSvr.L5.Configure
