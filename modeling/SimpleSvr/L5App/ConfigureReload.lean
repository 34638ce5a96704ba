import SimpleSvr.L5App.Configure

/-!
# Loading a configuration again

`Load` and `Reload` read into the one static map and never clear it, so a key
that an earlier file assigned stays until a later one assigns it again.
`reflects_iff`: what is reported is what the last file says exactly when it
assigns every key that was ever assigned.
-/
namespace SimpleSvr.L5

/-- mirrors include/Configure.hpp:35-37 -/
structure Configure where
  m_ConfigFile : Bytes
  m_ConfigMap : Configure.ConfigMap

namespace Configure

/-- mirrors src/Configure.cc:105-109 -/
def Load (c : Configure) (szFile : Bytes) (content : Option Bytes) : Int × Configure :=
  let (ret, m_ConfigMap) := ReadINIFile content c.m_ConfigMap
  (ret, { m_ConfigFile := szFile, m_ConfigMap })

/-- mirrors include/Configure.hpp:30-33 -/
def Reload (c : Configure) (content : Option Bytes) : Int × Configure := c.Load c.m_ConfigFile content

/-- `m_ConfigMap[name]`, which makes the section where there is none.
mirrors include/Configure.hpp:20-28 -/
def Get (c : Configure) (name : Bytes) : Section × Configure :=
  (((c.m_ConfigMap.insert name .empty).find name).getD .empty,
    { c with m_ConfigMap := c.m_ConfigMap.insert name .empty })

/-- A new process. -/
def fresh : Configure := { m_ConfigFile := [], m_ConfigMap := .empty }

/-- A call that finds the file with this content. -/
inductive Call where
  | load (szFile content : Bytes)
  | reload (content : Bytes)

def Call.content : Call → Bytes
  | .load _ content | .reload content => content

def apply (c : Configure) : Call → Configure
  | .load szFile content => (c.Load szFile (some content)).2
  | .reload content => (c.Reload (some content)).2

/-- After the calls, `Get` reports what it would if only the last content had been loaded. -/
def Reflects (earlier : List Call) (last : Call) : Prop :=
  ∀ szFile s k, (((earlier ++ [last]).foldl apply fresh).Get s).1.find k =
    ((fresh.Load szFile (some last.content)).2.Get s).1.find k

/-- The text gives a value to the key. -/
def Assigns (content s k : Bytes) : Prop := ∃ v, (s, k, v) ∈ assignments [] (scanAll content)

theorem get_find (c : Configure) (s k : Bytes) : (c.Get s).1.find k = value c.m_ConfigMap s k := by
  unfold Get value
  simp only [OrdMap.find_insert]
  cases c.m_ConfigMap.find s <;> rfl

theorem isSome_lastValue {l : List (Bytes × Bytes × Bytes)} {s k : Bytes} :
    (lastValue l s k).isSome = true ↔ ∃ v, (s, k, v) ∈ l := by
  rw [lastValue, Option.isSome_map, List.find?_isSome]
  constructor
  · rintro ⟨⟨s', k', v⟩, hmem, hk⟩
    obtain ⟨rfl, rfl⟩ := of_decide_eq_true hk
    exact ⟨v, List.mem_reverse.mp hmem⟩
  · rintro ⟨v, hmem⟩
    exact ⟨(s, k, v), List.mem_reverse.mpr hmem, decide_eq_true ⟨rfl, rfl⟩⟩

theorem value_load (c : Configure) (szFile content s k : Bytes) :
    value (c.Load szFile (some content)).2.m_ConfigMap s k =
      (lastValue (assignments [] (scanAll content)) s k).or (value c.m_ConfigMap s k) :=
  (read_spec content c.m_ConfigMap).1 s k

theorem value_apply (c : Configure) (call : Call) (s k : Bytes) :
    value (c.apply call).m_ConfigMap s k =
      (lastValue (assignments [] (scanAll call.content)) s k).or (value c.m_ConfigMap s k) := by
  cases call with
  | load szFile content => exact value_load c szFile content s k
  | reload content => exact value_load c c.m_ConfigFile content s k

/-- No assignment of a run is forgotten. -/
theorem isSome_run (calls : List Call) (c : Configure) (s k : Bytes) :
    (value (calls.foldl apply c).m_ConfigMap s k).isSome = true ↔
      (value c.m_ConfigMap s k).isSome = true ∨ ∃ call ∈ calls, Assigns call.content s k := by
  induction calls generalizing c with
  | nil => simp
  | cons call calls ih =>
    have hcall : (∃ v, (s, k, v) ∈ assignments [] (scanAll call.content)) ↔ Assigns call.content s k := Iff.rfl
    rw [List.foldl_cons, ih, value_apply, Option.isSome_or, Bool.or_eq_true, isSome_lastValue, hcall]
    simp only [List.mem_cons, or_and_right, exists_or, exists_eq_left]
    rw [or_assoc, or_left_comm]

/-- The last content is what is reported exactly when it assigns all that was assigned before. -/
theorem reflects_iff (earlier : List Call) (last : Call) :
    Reflects earlier last ↔
      ∀ s k, (∃ call ∈ earlier, Assigns call.content s k) → Assigns last.content s k := by
  have hbefore (s k : Bytes) : (value (earlier.foldl apply fresh).m_ConfigMap s k).isSome = true ↔
      ∃ call ∈ earlier, Assigns call.content s k :=
    (isSome_run earlier fresh s k).trans (or_iff_right nofun)
  unfold Reflects
  simp only [get_find, List.foldl_append, List.foldl_cons, List.foldl_nil, value_apply, value_load]
  have hnone (s k : Bytes) : value fresh.m_ConfigMap s k = none := rfl
  simp only [hnone, Option.or_none]
  constructor
  · intro h s k he
    have hsome := (hbefore s k).mpr he
    have heq := h [] s k
    by_contra hn
    rw [Assigns, ← isSome_lastValue, Bool.not_eq_true, Option.isSome_eq_false_iff, Option.isNone_iff_eq_none] at hn
    rw [hn, Option.none_or] at heq
    rw [heq] at hsome
    cases hsome
  · intro h _ s k
    cases hl : lastValue (assignments [] (scanAll last.content)) s k with
    | some v => rfl
    | none =>
      rw [Option.none_or]
      by_contra hn
      have hlast := h s k ((hbefore s k).mp (Option.isSome_iff_ne_none.mpr hn))
      rw [Assigns, ← isSome_lastValue, hl] at hlast
      cases hlast

/-- `[a]` and `k=v`, then a file without the key. -/
theorem removed_key_stays : ¬Reflects [.load [102] [91, 97, 93, 10, 107, 61, 118]] (.reload [91, 97, 93]) := by
  intro h
  have hk := h [102] [97] [107]
  exact absurd hk (by decide)

end Configure
end SimpleSvr.L5
