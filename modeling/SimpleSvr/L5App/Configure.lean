import SimpleSvr.Core.Text
import SimpleSvr.L4Routing.LoadBalance
import Mathlib.Data.List.Lex

/-!
# Configuration files (`Configure.cc`)

`ReadINIFile` reads sections of assignments into a map of maps, line by line: a
comment goes, blanks around go, and what is left is a header, an assignment
under the last header, or nothing.

`read_spec` says what a text adds to the map it is read into: the sections of
its headers, and for every key the last value that it assigns (`assignments`).
-/
namespace SimpleSvr.L5.Configure
open SimpleSvr.L4.LoadBalance (isSpace isDigit)

instance instLinearOrderUInt8 : LinearOrder UInt8 where
  le_refl := UInt8.le_refl
  le_trans _ _ _ := UInt8.le_trans
  lt_iff_le_not_ge _ _ := Std.lt_iff_le_and_not_ge
  le_antisymm _ _ := UInt8.le_antisymm
  le_total := UInt8.le_total
  toDecidableLE := inferInstance
  toDecidableEq := inferInstance
  toDecidableLT := inferInstance

/-- The assignments of one section. -/
abbrev Section := OrdMap Bytes Bytes

abbrev ConfigMap := OrdMap Bytes Section

/-- `[_a-zA-Z0-9]` -/
def isName (c : UInt8) : Bool := c == 95 || (97 ≤ c && c ≤ 122) || (65 ≤ c && c ≤ 90) || isDigit c

/-- The group of `^\[([_a-zA-Z0-9]+)\]$`. -/
def matchBlock : Bytes → Option Bytes
  | 91 :: s =>
    let (name, rest) := s.span isName
    if name ≠ [] ∧ rest = [93] then some name else none
  | _ => none

/-- The groups of `^([^=]+)=(.*)$`: the first part ends at the first `=`. -/
def matchKeyVal (s : Bytes) : Option (Bytes × Bytes) :=
  let (key, rest) := s.span (· != 61)
  match rest with
  | [] => none
  | _ :: val => if key ≠ [] then some (key, val) else none

/-- What the expressions make of a line. -/
inductive Line where
  | block (name : Bytes)
  | keyVal (sKey sVal : Bytes)
  | other
  deriving DecidableEq

/-- An empty line matches neither expression.
mirrors src/Configure.cc:75-97 -/
def scan (sLine : Bytes) : Line :=
  let sLine := trimBy isSpace (sLine.takeWhile (· != 35))
  match matchBlock sLine with
  | some name => .block name
  | none =>
    match matchKeyVal sLine with
    | some (sKey, sVal) => .keyVal (trimBy isSpace sKey) (trimBy isSpace sVal)
    | none => .other

/-- `stConfigMap[sBlockKey][sKey] = sVal` -/
def assign (stConfigMap : ConfigMap) (sBlockKey sKey sVal : Bytes) : ConfigMap :=
  (stConfigMap.insert sBlockKey .empty).modify sBlockKey (·.put sKey sVal)

/-- `sBlockKey` and the map; an assignment before the first header is dropped.
mirrors src/Configure.cc:80-97 -/
def readLine (st : Bytes × ConfigMap) : Line → Bytes × ConfigMap
  | .block name => (name, st.2.insert name .empty)
  | .keyVal sKey sVal => if st.1 ≠ [] then (st.1, assign st.2 st.1 sKey sVal) else st
  | .other => st

/-- The lines of the text up to its first NUL. -/
def scanAll (sConfigContent : Bytes) : List Line :=
  ((sConfigContent.takeWhile (· != 0)).splitOn 10).map scan

/-- `none`: the file could not be opened or read.
mirrors src/Configure.cc:33-100 -/
def ReadINIFile (content : Option Bytes) (stConfigMap : ConfigMap) : Int × ConfigMap :=
  match content with
  | none => (-1, stConfigMap)
  | some sConfigContent => (0, ((scanAll sConfigContent).foldl readLine ([], stConfigMap)).2)

/-! ## What a text says -/

/-- The section, key and value of every assignment, in order; `s` is the section that is open. -/
def assignments (s : Bytes) : List Line → List (Bytes × Bytes × Bytes)
  | [] => []
  | .block name :: ls => assignments name ls
  | .keyVal sKey sVal :: ls =>
    if s ≠ [] then (s, sKey, sVal) :: assignments s ls else assignments s ls
  | .other :: ls => assignments s ls

/-- The last value that is assigned to a key of a section. -/
def lastValue (l : List (Bytes × Bytes × Bytes)) (s k : Bytes) : Option Bytes :=
  (l.reverse.find? fun a => a.1 = s ∧ a.2.1 = k).map fun a => a.2.2

/-- The value of a key in a section. -/
def value (m : ConfigMap) (s k : Bytes) : Option Bytes := (m.find s).bind (·.find k)

/-- A map of sections is its sections and its values. -/
theorem ext_value {m m' : ConfigMap} (hs : ∀ s, (m.find s).isSome = (m'.find s).isSome)
    (hv : ∀ s k, value m s k = value m' s k) : m = m' := by
  apply OrdMap.ext_find
  intro s
  have hsome := hs s
  have hval := hv s
  unfold value at hval
  cases h : m.find s with
  | none =>
    rw [h] at hsome
    exact (Option.not_isSome_iff_eq_none.mp (Bool.eq_false_iff.mp hsome.symm)).symm
  | some sec =>
    cases h' : m'.find s with
    | none =>
      rw [h, h'] at hsome
      cases hsome
    | some sec' =>
      rw [h, h'] at hval
      exact congrArg some (OrdMap.ext_find hval)

theorem value_insert (m : ConfigMap) (name s k : Bytes) : value (m.insert name .empty) s k = value m s k := by
  unfold value
  by_cases h : s = name
  · rw [h, OrdMap.find_insert]
    cases m.find name <;> rfl
  · rw [OrdMap.find_insert_ne h]

theorem isSome_insert (m : ConfigMap) (name s : Bytes) :
    ((m.insert name .empty).find s).isSome = true ↔ (m.find s).isSome = true ∨ s = name := by
  by_cases h : s = name
  · rw [h, OrdMap.find_insert]
    simp
  · rw [OrdMap.find_insert_ne h]
    simp [h]

theorem value_assign (m : ConfigMap) (s k v s' k' : Bytes) :
    value (assign m s k v) s' k' = if s = s' ∧ k = k' then some v else value m s' k' := by
  by_cases hs : s' = s
  · subst hs
    have hfind : (assign m s' k v).find s' = some (((m.find s').getD .empty).put k v) := by
      rw [assign, OrdMap.find_modify, OrdMap.find_insert]
      rfl
    have hold : ((m.find s').getD .empty).find k' = value m s' k' := by
      unfold value
      cases m.find s' <;> rfl
    rw [value, hfind, Option.bind_some]
    by_cases hk : k' = k
    · rw [hk, OrdMap.find_put, if_pos ⟨rfl, rfl⟩]
    · rw [OrdMap.find_put_ne hk, if_neg fun hc => hk hc.2.symm, hold]
  · rw [if_neg fun hc => hs hc.1.symm]
    unfold value assign
    rw [OrdMap.find_modify_ne hs, OrdMap.find_insert_ne hs]

theorem isSome_assign (m : ConfigMap) (s k v s' : Bytes) :
    ((assign m s k v).find s').isSome = true ↔ (m.find s').isSome = true ∨ s' = s := by
  unfold assign
  by_cases hs : s' = s
  · rw [hs, OrdMap.find_modify, OrdMap.find_insert]
    simp
  · rw [OrdMap.find_modify_ne hs, OrdMap.find_insert_ne hs]
    simp [hs]

theorem lastValue_cons (a : Bytes × Bytes × Bytes) (l : List (Bytes × Bytes × Bytes)) (s k : Bytes) :
    lastValue (a :: l) s k = (lastValue l s k).or (if a.1 = s ∧ a.2.1 = k then some a.2.2 else none) := by
  unfold lastValue
  rw [List.reverse_cons, List.find?_append, Option.map_or, List.find?_singleton]
  congr 1
  by_cases h : a.1 = s ∧ a.2.1 = k
  · simp [h]
  · simp [h]

theorem foldl_values (ls : List Line) (s : Bytes) (m : ConfigMap) (s' k : Bytes) :
    value (ls.foldl readLine (s, m)).2 s' k = (lastValue (assignments s ls) s' k).or (value m s' k) := by
  induction ls generalizing s m with
  | nil => rfl
  | cons l ls ih =>
    cases l with
    | block name =>
      rw [List.foldl_cons, assignments, readLine, ih, value_insert]
    | keyVal sKey sVal =>
      by_cases hs : s ≠ []
      · rw [List.foldl_cons, assignments, if_pos hs, readLine, if_pos hs, ih, value_assign, lastValue_cons]
        by_cases h : s = s' ∧ sKey = k
        · rw [if_pos h, if_pos h, Option.or_assoc, Option.some_or]
        · rw [if_neg h, if_neg h, Option.or_none]
      · rw [List.foldl_cons, assignments, if_neg hs, readLine, if_neg hs, ih]
    | other => exact ih s m

theorem foldl_sections (ls : List Line) (s : Bytes) (m : ConfigMap) (hm : s ≠ [] → (m.find s).isSome = true)
    (s' : Bytes) :
    ((ls.foldl readLine (s, m)).2.find s').isSome = true ↔ (m.find s').isSome = true ∨ Line.block s' ∈ ls := by
  induction ls generalizing s m with
  | nil => simp
  | cons l ls ih =>
    cases l with
    | block name =>
      have hopen : name ≠ [] → ((m.insert name .empty).find name).isSome = true :=
        fun _ => (isSome_insert m name name).mpr (.inr rfl)
      rw [List.foldl_cons, readLine, ih name _ hopen, isSome_insert, List.mem_cons, Line.block.injEq, or_assoc]
    | keyVal sKey sVal =>
      by_cases hs : s ≠ []
      · have hopen : s ≠ [] → ((assign m s sKey sVal).find s).isSome = true :=
          fun _ => (isSome_assign m s sKey sVal s).mpr (.inr rfl)
        rw [List.foldl_cons, readLine, if_pos hs, ih s _ hopen, isSome_assign, List.mem_cons]
        -- the section that is open is there already
        have hsame : (m.find s').isSome = true ∨ s' = s ↔ (m.find s').isSome = true :=
          or_iff_left_of_imp fun he => he ▸ hm hs
        rw [hsame]
        simp
      · rw [List.foldl_cons, readLine, if_neg hs, ih s m hm, List.mem_cons]
        simp
    | other =>
      rw [List.foldl_cons, readLine, ih s m hm, List.mem_cons]
      simp

/-- What a text adds to the map that it is read into. -/
theorem read_spec (content : Bytes) (m : ConfigMap) :
    (∀ s k, value (ReadINIFile (some content) m).2 s k =
      (lastValue (assignments [] (scanAll content)) s k).or (value m s k)) ∧
    ∀ s, ((ReadINIFile (some content) m).2.find s).isSome = true ↔
      (m.find s).isSome = true ∨ Line.block s ∈ scanAll content :=
  ⟨foldl_values _ _ _, foldl_sections _ _ _ fun h => absurd rfl h⟩

end SimpleSvr.L5.Configure
