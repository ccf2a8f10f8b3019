import Mathlib.Data.List.Basic
import Mathlib.Data.List.Chain
import Mathlib.Data.List.Sort

/-!
Ordered maps kept as tables of encoded keys and values. Keys are encoded so that their order is
kept, at least on the keys that fit; then the table lists the entries of the map in the map's own
order, and a lookup, an insertion or a deletion through an encoded key is one in the map.
-/

namespace TableEncoding

open Std

section Maps

variable {Key Value : Type} {cmp : Key → Key → Ordering} [TransCmp cmp]

theorem mem_of_getElem? {map : ExtTreeMap Key Value cmp} {k : Key} {v : Value}
    (found : map[k]? = some v) : k ∈ map :=
  ExtTreeMap.isSome_getElem?_iff_mem.mp (found ▸ rfl)

variable [LawfulEqCmp cmp]

theorem ordered_unique {first second : List (Key × Value)}
    (one : first.Pairwise fun a b => cmp a.1 b.1 = .lt) (two : second.Pairwise fun a b =>
      cmp a.1 b.1 = .lt) (same : ∀ entry, entry ∈ first ↔ entry ∈ second) :
    first = second := by
  have apart : ∀ a b : Key × Value, cmp a.1 b.1 = .lt → a ≠ b := by
    rintro a b below rfl
    cases below.symm.trans ReflCmp.compare_self
  refine List.Perm.eq_of_pairwise (fun a b _ _ below above => ?_) one two
    ((List.perm_ext_iff_of_nodup (one.imp fun {a b} => apart a b)
      (two.imp fun {a b} => apart a b)).mpr same)
  have turned : cmp a.1 b.1 = (cmp b.1 a.1).swap := OrientedCmp.eq_swap
  rw [above] at turned
  cases below.symm.trans turned

end Maps

section Inserting

variable {K V : Type} [Ord K] [TransOrd K] [LawfulEqOrd K]

theorem getElem?_foldl_insert (items : List (K × V))
    (distinct : items.Pairwise fun a b => a.1 ≠ b.1) (table : ExtTreeMap K V)
    (key : K) (value : V) :
    (items.foldl (fun table entry => table.insert entry.1 entry.2) table)[key]? = some value ↔
      (key, value) ∈ items ∨ (∀ entry ∈ items, entry.1 ≠ key) ∧ table[key]? = some value := by
  induction items generalizing table with
  | nil => simp
  | cons entry rest ih =>
      obtain ⟨first, held⟩ := entry
      have apart : ∀ other ∈ rest, first ≠ other.1 := fun other member =>
        List.rel_of_pairwise_cons distinct member
      rw [List.foldl_cons, ih distinct.of_cons, ExtTreeMap.getElem?_insert, List.mem_cons,
        List.forall_mem_cons, Prod.mk.injEq]
      by_cases same : first = key
      · subst same
        have absent : (first, value) ∉ rest := fun member => apart _ member rfl
        simp only [LawfulEqCmp.compare_eq_iff_eq, if_true, absent, false_or, true_and,
          Option.some.injEq, ne_eq, not_true_eq_false, false_and, or_false]
        exact ⟨fun ⟨_, found⟩ => found.symm, fun found =>
          ⟨fun other member => (apart other member).symm, found.symm⟩⟩
      · simp [same, Ne.symm same]

theorem foldl_insert_toList (table : ExtTreeMap K V) :
    table.toList.foldl (fun table entry => table.insert entry.1 entry.2) ∅ = table := by
  have distinct : table.toList.Pairwise fun a b => a.1 ≠ b.1 :=
    ExtTreeMap.distinct_keys_toList.imp fun apart same =>
      apart (LawfulEqCmp.compare_eq_iff_eq.mpr same)
  refine ExtTreeMap.ext_getElem? fun key => Option.ext fun value => ?_
  rw [getElem?_foldl_insert _ distinct]
  simp

end Inserting

variable {Key Value Code Text : Type} [Ord Key] [TransOrd Key] [LawfulEqOrd Key] [Ord Code]
    [TransOrd Code] [LawfulEqOrd Code]

structure Denotes (key : Key → Code) (value : Value → Text) (fits : Key → Prop)
    (table : ExtTreeMap Code Text) (map : ExtTreeMap Key Value) : Prop where
  lookup : ∀ k, fits k → table[key k]? = map[k]?.map value
  encoded : ∀ code, code ∈ table → ∃ k, fits k ∧ key k = code
  fitting : ∀ k, k ∈ map → fits k

variable {key : Key → Code} {value : Value → Text} {fits : Key → Prop}
    {table : ExtTreeMap Code Text}
  {map : ExtTreeMap Key Value} {k : Key} {v : Value}

omit [LawfulEqOrd Key] [LawfulEqOrd Code] in
theorem denotes_empty : Denotes key value fits ∅ ∅ := by constructor <;> simp

def Ordered (key : Key → Code) (fits : Key → Prop) : Prop :=
  ∀ a b, fits a → fits b → compare (key a) (key b) = compare a b

omit [TransOrd Key] [TransOrd Code] in
theorem Ordered.inj (ordered : Ordered key fits) {a b : Key} (one : fits a) (two : fits b)
    (same : key a = key b) : a = b := by
  refine LawfulEqOrd.eq_of_compare ?_
  rw [← ordered a b one two, same, ReflOrd.compare_self]

namespace Denotes

variable (denotes : Denotes key value fits table map)

include denotes

section

variable (ordered : Ordered key fits)

include ordered

theorem insert (fit : fits k) :
    Denotes key value fits (table.insert (key k) (value v)) (map.insert k v) where
  lookup a other := by
    rw [ExtTreeMap.getElem?_insert, ExtTreeMap.getElem?_insert, ordered k a fit other,
      denotes.lookup a other]
    split <;> rfl
  encoded code listed := by
    rcases ExtTreeMap.mem_insert.mp listed with same | old
    · exact ⟨k, fit, LawfulEqOrd.eq_of_compare same⟩
    · exact denotes.encoded code old
  fitting a listed := by
    rcases ExtTreeMap.mem_insert.mp listed with same | old
    · exact LawfulEqOrd.eq_of_compare same ▸ fit
    · exact denotes.fitting a old

omit [LawfulEqOrd Key] [LawfulEqOrd Code] in
theorem erase (fit : fits k) :
    Denotes key value fits (table.erase (key k)) (map.erase k) where
  lookup a other := by
    rw [ExtTreeMap.getElem?_erase, ExtTreeMap.getElem?_erase, ordered k a fit other,
      denotes.lookup a other]
    split <;> rfl
  encoded code listed := denotes.encoded code (ExtTreeMap.mem_of_mem_erase listed)
  fitting a listed := denotes.fitting a (ExtTreeMap.mem_of_mem_erase listed)

theorem toList_eq : table.toList = map.toList.map fun entry => (key entry.1, value entry.2) := by
  have fit : ∀ entry ∈ map.toList, fits entry.1 := fun entry listed =>
    denotes.fitting _ (mem_of_getElem? (ExtTreeMap.mem_toList_iff_getElem?_eq_some.mp listed))
  refine ordered_unique ExtTreeMap.ordered_keys_toList ?_ ?_
  · refine List.pairwise_map.mpr
      (ExtTreeMap.ordered_keys_toList.imp_of_mem fun {a b} one two below => ?_)
    exact (ordered _ _ (fit a one) (fit b two)).trans below
  · rintro ⟨code, text⟩
    simp only [ExtTreeMap.mem_toList_iff_getElem?_eq_some, List.mem_map, Prod.mk.injEq]
    constructor
    · intro found
      obtain ⟨k, fitting, rfl⟩ := denotes.encoded code (mem_of_getElem? found)
      rw [denotes.lookup k fitting] at found
      obtain ⟨v, stored, rfl⟩ := Option.map_eq_some_iff.mp found
      exact ⟨(k, v), ExtTreeMap.mem_toList_iff_getElem?_eq_some.mpr stored, rfl, rfl⟩
    · rintro ⟨entry, listed, rfl, rfl⟩
      rw [denotes.lookup _ (fit entry listed), ExtTreeMap.mem_toList_iff_getElem?_eq_some.mp listed]
      rfl

theorem size_eq : table.size = map.size := by
  rw [← ExtTreeMap.length_toList, denotes.toList_eq ordered, List.length_map,
    ExtTreeMap.length_toList]

theorem maxKey?_eq : table.maxKey? = map.maxKey?.map key := by
  have keys : table.keys = map.keys.map key := by
    rw [← ExtTreeMap.map_fst_toList_eq_keys, ← ExtTreeMap.map_fst_toList_eq_keys,
      denotes.toList_eq ordered, List.map_map, List.map_map]
    rfl
  rw [ExtTreeMap.maxKey?_eq_getLast?_keys, ExtTreeMap.maxKey?_eq_getLast?_keys, keys,
    List.getLast?_map]

end

end Denotes

end TableEncoding
