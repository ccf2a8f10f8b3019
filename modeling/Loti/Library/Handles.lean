import Mathlib.Data.List.Nodup
import Mathlib.Data.List.Pairwise
import Mathlib.Data.List.TakeWhile

/-!
Containers whose elements are referred to by handles, as iterators do. A handle is given out once
and stands for one element. Once the element is erased, every use of the handle fails: it cannot
be read, advanced or erased through. An iterator is a handle, or `none` for the end.
-/

namespace Handles

structure Cells (α : Type) where
  cells : List (Nat × α)
  fresh : Nat
  distinct : (cells.map Prod.fst).Nodup
  issued : ∀ cell ∈ cells, cell.1 < fresh

namespace Cells

variable {α : Type} (c : Cells α)

def empty : Cells α := ⟨[], 0, List.nodup_nil, by simp⟩

def values : List α := c.cells.map Prod.snd

def get? (handle : Nat) : Option α := (c.cells.find? fun cell => cell.1 == handle).map Prod.snd

def after? (handle : Nat) : Option (Option Nat) :=
  match c.cells.dropWhile fun cell => cell.1 != handle with
  | [] => none
  | _ :: rest => some (rest.head?.map Prod.fst)

def begin : Option Nat := c.cells.head?.map Prod.fst

def first? (property : α → Bool) : Option Nat :=
  (c.cells.find? fun cell => property cell.2).map Prod.fst

/-- The handles from one iterator up to another, which has to come after it. -/
def range? (first last : Option Nat) : Option (List Nat) :=
  if first = last then some []
  else
    let tail := c.cells.dropWhile fun cell => some cell.1 != first
    let covered := tail.takeWhile fun cell => some cell.1 != last
    if tail = [] ∨ last ≠ none ∧ covered.length = tail.length then none
    else some (covered.map Prod.fst)

def keep (kept : Nat × α → Bool) : Cells α where
  cells := c.cells.filter kept
  fresh := c.fresh
  distinct := c.distinct.sublist (List.filter_sublist.map Prod.fst)
  issued cell member := c.issued cell (List.mem_filter.mp member).1

def eraseIf (gone : α → Bool) : Cells α := c.keep fun cell => !gone cell.2

def erase? (handle : Nat) : Option (Cells α × Option Nat) :=
  (c.after? handle).map fun next => (c.keep fun cell => cell.1 != handle, next)

def alter (change : Nat → α → α) : Cells α where
  cells := c.cells.map fun cell => (cell.1, change cell.1 cell.2)
  fresh := c.fresh
  distinct := by
    rw [List.map_map]
    exact c.distinct
  issued cell member := by
    obtain ⟨old, held, rfl⟩ := List.mem_map.mp member
    exact c.issued old held

def set (handle : Nat) (value : α) : Cells α :=
  c.alter fun other old => if other = handle then value else old

def insertBefore (later : α → Bool) (value : α) : Cells α where
  cells := c.cells.takeWhile (fun cell => !later cell.2) ++ (c.fresh, value) ::
    c.cells.dropWhile fun cell => !later cell.2
  fresh := c.fresh + 1
  distinct := by
    rw [List.map_append, List.map_cons]
    refine (List.perm_middle.nodup_iff).mpr (List.nodup_cons.mpr ⟨?_, ?_⟩) <;>
      rw [← List.map_append, List.takeWhile_append_dropWhile]
    · intro taken
      obtain ⟨cell, held, same⟩ := List.mem_map.mp taken
      exact absurd (c.issued cell held) (by omega)
    · exact c.distinct
  issued cell member := by
    rcases List.mem_append.mp member with before | member
    · exact Nat.lt_succ_of_lt (c.issued cell ((List.takeWhile_sublist _).subset before))
    · rcases List.mem_cons.mp member with rfl | behind
      · exact Nat.lt_succ_self _
      · exact Nat.lt_succ_of_lt (c.issued cell ((List.dropWhile_sublist _).subset behind))

def pushBack (value : α) : Cells α := c.insertBefore (fun _ => false) value

variable {c} {handle : Nat} {value : α} {before rest : List (Nat × α)}

@[simp] theorem values_empty : (empty : Cells α).values = [] := rfl

theorem values_keep_sublist (kept : Nat × α → Bool) : (c.keep kept).values.Sublist c.values :=
  List.filter_sublist.map Prod.snd

@[simp] theorem values_eraseIf (gone : α → Bool) :
    (c.eraseIf gone).values = c.values.filter fun a => !gone a := by
  simp only [values, eraseIf, keep, List.filter_map]
  rfl

theorem values_insertBefore (later : α → Bool) :
    (c.insertBefore later value).values = c.values.takeWhile (fun a => !later a) ++ value ::
      c.values.dropWhile fun a => !later a := by
  simp only [values, insertBefore, List.map_append, List.map_cons, List.takeWhile_map,
    List.dropWhile_map]
  rfl

theorem values_insertBefore_perm (later : α → Bool) : (c.insertBefore later value).values.Perm
    (value :: c.values) := by
  rw [values_insertBefore]
  refine List.perm_middle.trans ?_
  rw [List.takeWhile_append_dropWhile]

theorem mem_insertBefore {later : α → Bool} {other : α} :
    other ∈ (c.insertBefore later value).values ↔ other = value ∨ other ∈ c.values := by
  rw [(values_insertBefore_perm later).mem_iff, List.mem_cons]

theorem values_alter (change : α → α) : (c.alter fun _ => change).values = c.values.map change := by
  simp [values, alter]

theorem apart_of_split (split : c.cells = before ++ (handle, value) :: rest) :
    ∀ cell ∈ before, cell.1 ≠ handle := by
  intro cell earlier same
  have distinct := c.distinct
  rw [split, List.map_append, List.map_cons] at distinct
  exact (List.nodup_append.mp distinct).2.2 cell.1
    (List.mem_map_of_mem earlier) handle List.mem_cons_self same

theorem get?_of_mem (held : (handle, value) ∈ c.cells) : c.get? handle = some value := by
  obtain ⟨before, rest, split⟩ := List.append_of_mem held
  have skipped : before.find? (fun cell => cell.1 == handle) = none := by
    simpa using apart_of_split split
  simp [get?, split, List.find?_append, skipped]

theorem mem_of_get? (found : c.get? handle = some value) : value ∈ c.values := by
  obtain ⟨cell, first, rfl⟩ := Option.map_eq_some_iff.mp found
  exact List.mem_map_of_mem (List.mem_of_find?_eq_some first)

theorem value_unique {other : α} (one : (handle, value) ∈ c.cells)
    (two : (handle, other) ∈ c.cells) : value = other :=
  Option.mem_unique (get?_of_mem one) (get?_of_mem two)

theorem after?_of_split (split : c.cells = before ++ (handle, value) :: rest) :
    c.after? handle = some (rest.head?.map Prod.fst) := by
  have skipped : ∀ cell ∈ before, (cell.1 != handle) = true := by simpa using apart_of_split split
  rw [after?, split, List.dropWhile_append_of_pos skipped]
  simp

theorem ext_cells {other : Cells α} (cells : c.cells = other.cells)
    (fresh : c.fresh = other.fresh) : c = other := by
  cases c
  cases other
  simp_all

theorem set_of_split (split : c.cells = before ++ (handle, value) :: rest) (new : α) :
    (c.set handle new).cells = before ++ (handle, new) :: rest := by
  have distinct := c.distinct
  rw [split, List.map_append, List.map_cons] at distinct
  have behind : ∀ cell ∈ rest, cell.1 ≠ handle := by
    intro cell later same
    exact (List.nodup_cons.mp (List.nodup_append.mp distinct).2.1).1
      (List.mem_map.mpr ⟨cell, later, same⟩)
  have unchanged : ∀ cells : List (Nat × α), (∀ cell ∈ cells, cell.1 ≠ handle) →
      cells.map (fun cell => (cell.1, if cell.1 = handle then new else cell.2)) = cells := by
    intro cells apart
    conv_rhs => rw [← List.map_id cells]
    refine List.map_congr_left fun cell member => ?_
    rw [if_neg (apart cell member)]
    rfl
  simp [set, alter, split, unchanged before (apart_of_split split), unchanged rest behind]

theorem mem_set {new other : α} (member : other ∈ (c.set handle new).values) :
    other = new ∨ other ∈ c.values := by
  obtain ⟨_, replaced, rfl⟩ := List.mem_map.mp member
  obtain ⟨cell, held, rfl⟩ := List.mem_map.mp replaced
  dsimp only
  split_ifs
  · exact Or.inl rfl
  · exact Or.inr (List.mem_map_of_mem held)

theorem after?_eraseIf (gone : α → Bool) (held : (handle, value) ∈ c.cells)
    (erased : gone value = true) : (c.eraseIf gone).after? handle = none := by
  have missing : ∀ cell ∈ (c.eraseIf gone).cells, (cell.1 != handle) = true := by
    intro cell member
    obtain ⟨stays, kept⟩ := List.mem_filter.mp member
    rw [bne_iff_ne]
    rintro rfl
    have same : cell.2 = value := value_unique stays held
    simp [same, erased] at kept
  rw [after?, List.dropWhile_eq_nil_iff.mpr missing]

theorem first?_eq_none {property : α → Bool} (missing : ∀ a ∈ c.values, property a = false) :
    c.first? property = none := by
  have nowhere : c.cells.find? (fun cell => property cell.2) = none := by
    rw [List.find?_eq_none]
    intro cell member
    simp [missing cell.2 (List.mem_map_of_mem member)]
  rw [first?, nowhere]
  rfl

theorem first?_eq_some {property : α → Bool} (found : c.first? property = some handle) :
    ∃ value, (handle, value) ∈ c.cells ∧ property value = true := by
  obtain ⟨cell, first, rfl⟩ := Option.map_eq_some_iff.mp found
  exact ⟨cell.2, List.mem_of_find?_eq_some first, by simpa using List.find?_some first⟩

theorem exists_first? (property : α → Bool) (held : value ∈ c.values)
    (holds : property value = true) : ∃ before handle found rest, c.first? property = some handle ∧
      c.cells = before ++ (handle, found) :: rest ∧ property found = true ∧ ∀ cell ∈ before,
      property cell.2 = false := by
  obtain ⟨cell, member, rfl⟩ := List.mem_map.mp held
  have some : (c.cells.find? fun cell => property cell.2).isSome :=
    List.find?_isSome.mpr ⟨cell, member, holds⟩
  obtain ⟨first, isFirst⟩ := Option.isSome_iff_exists.mp some
  obtain ⟨has, before, rest, split, skipped⟩ := List.find?_eq_some_iff_append.mp isFirst
  exact ⟨before, first.1, first.2, rest, by simp [first?, isFirst], split,
    has, by simpa using skipped⟩

end Cells

/-- Keys in order, several elements to a key in the order they came. -/
structure Multimap (κ α : Type) [Ord κ] where
  entries : Cells (κ × α)
  sorted : entries.values.Pairwise fun earlier later => (compare earlier.1 later.1).isLE

namespace Multimap

variable {κ α : Type} [Ord κ]

def empty : Multimap κ α := ⟨.empty, .nil⟩

/-- The iterators to the first element that is not before the key and to the first one after it. -/
def equalRange (table : Multimap κ α) (key : κ) : Option Nat × Option Nat :=
  (table.entries.first? fun entry => (compare entry.1 key).isGE,
    table.entries.first? fun entry => compare entry.1 key == .gt)

def keep (table : Multimap κ α) (kept : Nat × κ × α → Bool) : Multimap κ α where
  entries := table.entries.keep kept
  sorted := table.sorted.sublist (Cells.values_keep_sublist kept)

def eraseIf (table : Multimap κ α) (gone : κ × α → Bool) : Multimap κ α :=
  table.keep fun cell => !gone cell.2

def eraseRange? (table : Multimap κ α) (first last : Option Nat) : Option (Multimap κ α) :=
  (table.entries.range? first last).map fun handles => table.keep fun cell => cell.1 ∉ handles

variable {table : Multimap κ α} {key : κ} {value : α}

@[simp] theorem mem_eraseIf {gone : κ × α → Bool} {entry : κ × α} :
    entry ∈ (table.eraseIf gone).entries.values ↔ entry ∈ table.entries.values ∧
    gone entry = false := by
  change entry ∈ (table.entries.eraseIf gone).values ↔ _
  simp

theorem eraseRange?_self (it : Option Nat) : table.eraseRange? it it = some table := by
  have all : table.entries.keep (fun _ => true) = table.entries := by
    simp [Cells.keep]
  simp [eraseRange?, Cells.range?, keep, all]

section Insertion

variable [Std.TransOrd κ]

theorem sorted_insert {before behind : List (κ × α)} {key : κ} {value : α}
    (sorted : (before ++ behind).Pairwise fun earlier later => (compare earlier.1 later.1).isLE)
    (below : ∀ entry ∈ before, compare entry.1 key ≠ .gt)
    (above : ∀ entry, behind.head? = some entry → compare entry.1 key = .gt) :
    (before ++ (key, value) :: behind).Pairwise fun earlier later =>
    (compare earlier.1 later.1).isLE := by
  obtain ⟨first, second, across⟩ := List.pairwise_append.mp sorted
  have beyond : ∀ entry ∈ behind, (compare key entry.1).isLE := by
    cases behind with
    | nil => simp
    | cons next rest =>
        have less := Std.OrientedCmp.gt_iff_lt.mp (above next rfl)
        intro entry member
        rcases List.mem_cons.mp member with rfl | later
        · simp [less]
        · simp [Std.TransCmp.lt_of_lt_of_isLE less ((List.pairwise_cons.mp second).1 entry later)]
  refine List.pairwise_append.mpr ⟨first, List.pairwise_cons.mpr ⟨beyond, second⟩,
    fun earlier one later other => ?_⟩
  rcases List.mem_cons.mp other with rfl | other
  · exact Ordering.isLE_iff_ne_gt.mpr (below earlier one)
  · exact across earlier one later other

def insert (table : Multimap κ α) (key : κ) (value : α) : Multimap κ α where
  entries := table.entries.insertBefore (fun entry => compare entry.1 key == .gt) (key, value)
  sorted := by
    rw [Cells.values_insertBefore]
    refine sorted_insert ?_ (fun entry member => ?_) fun entry first => ?_
    · rw [List.takeWhile_append_dropWhile]
      exact table.sorted
    · simpa using List.mem_takeWhile_imp member
    · have fails := List.head?_dropWhile_not (fun entry : κ × α => !compare entry.1 key == .gt)
        table.entries.values
      rw [first] at fails
      simpa using fails

@[simp] theorem mem_insert {entry : κ × α} :
    entry ∈ (table.insert key value).entries.values ↔ entry = (key, value) ∨
    entry ∈ table.entries.values :=
  Cells.mem_insertBefore

end Insertion

variable [Std.LawfulEqOrd κ]

theorem equalRange_absent (absent : ∀ entry ∈ table.entries.values, entry.1 ≠ key) :
    ∃ it, table.equalRange key = (it, it) := by
  have alike : ∀ cell ∈ table.entries.cells,
    (compare cell.2.1 key).isGE = (compare cell.2.1 key == .gt) := by
    intro cell member
    have differs : compare cell.2.1 key ≠ .eq := fun same =>
      absent cell.2 (List.mem_map_of_mem member) (Std.LawfulEqCmp.compare_eq_iff_eq.mp same)
    cases order : compare cell.2.1 key <;> simp_all
  refine ⟨_, Prod.ext rfl ?_⟩
  simp only [equalRange, Cells.first?, ← List.head?_filter]
  rw [List.filter_congr alike]

theorem equalRange_present (present : (key, value) ∈ table.entries.values) :
    ∃ handle found last, table.equalRange key = (some handle, last) ∧
      (handle, (key, found)) ∈ table.entries.cells ∧ last ≠ some handle := by
  obtain ⟨before, handle, ⟨other, found⟩, rest, first, split, atLeast, skipped⟩ :=
    Cells.exists_first? (fun entry => (compare entry.1 key).isGE) present (by simp)
  have held : (handle, (other, found)) ∈ table.entries.cells := by simp [split]
  have entries :
    table.entries.values = before.map Prod.snd ++ (other, found) :: rest.map Prod.snd := by
    simp [Cells.values, split]
  obtain rfl : other = key := by
    rw [entries, List.mem_append, List.mem_cons] at present
    rcases present with earlier | same | later
    · obtain ⟨cell, member, same⟩ := List.mem_map.mp earlier
      simpa [same] using skipped cell member
    · exact (congrArg Prod.fst same).symm
    · have ordered := List.pairwise_append.mp (entries ▸ table.sorted)
      have atMost := (List.pairwise_cons.mp ordered.2.1).1 _ later
      have equal : compare other key = .eq := by
        cases order : compare other key <;> simp [order] at atMost atLeast ⊢
      exact Std.LawfulEqCmp.compare_eq_iff_eq.mp equal
  refine ⟨handle, found, _, Prod.ext first rfl, held, fun last => ?_⟩
  obtain ⟨entry, listed, greater⟩ := Cells.first?_eq_some last
  obtain rfl := Cells.value_unique listed held
  simp at greater

end Multimap

/-- One element to a key. Nothing here depends on the order of the keys. -/
structure Assoc (κ α : Type) where
  entries : Cells (κ × α)
  unique : (entries.values.map Prod.fst).Nodup

namespace Assoc

variable {κ α : Type}

def empty : Assoc κ α := ⟨.empty, .nil⟩

def keep (table : Assoc κ α) (kept : Nat × κ × α → Bool) : Assoc κ α where
  entries := table.entries.keep kept
  unique := table.unique.sublist ((Cells.values_keep_sublist kept).map Prod.fst)

def eraseIf (table : Assoc κ α) (gone : κ × α → Bool) : Assoc κ α :=
  table.keep fun cell => !gone cell.2

def erase? (table : Assoc κ α) (handle : Nat) : Option (Assoc κ α) :=
  (table.entries.after? handle).map fun _ => table.keep fun cell => cell.1 != handle

@[simp] theorem mem_eraseIf {table : Assoc κ α} {gone : κ × α → Bool} {entry : κ × α} :
    entry ∈ (table.eraseIf gone).entries.values ↔ entry ∈ table.entries.values ∧
    gone entry = false := by
  change entry ∈ (table.entries.eraseIf gone).values ↔ _
  simp

variable [DecidableEq κ]

def find (table : Assoc κ α) (key : κ) : Option Nat :=
  table.entries.first? fun entry => decide (entry.1 = key)

theorem keys_replace {entries : List (κ × α)} {key : κ} {value : α} :
    (entries.map fun entry => if entry.1 = key then (key, value) else entry).map Prod.fst =
    entries.map Prod.fst := by
  rw [List.map_map]
  refine List.map_congr_left fun entry _ => ?_
  by_cases same : entry.1 = key <;> simp [same]

def assign (table : Assoc κ α) (key : κ) (value : α) : Assoc κ α :=
  if present : key ∈ table.entries.values.map Prod.fst then
    { entries := table.entries.alter fun _ entry => if entry.1 = key then (key, value) else entry
      unique := by
        rw [Cells.values_alter, keys_replace]
        exact table.unique }
  else
    { entries := table.entries.pushBack (key, value)
      unique := ((Cells.values_insertBefore_perm _).map Prod.fst).nodup_iff.mpr
        (List.nodup_cons.mpr ⟨present, table.unique⟩) }

theorem mem_assign {table : Assoc κ α} {key : κ} {value : α} {entry : κ × α} :
    entry ∈ (table.assign key value).entries.values ↔
      entry = (key, value) ∨ entry ∈ table.entries.values ∧ entry.1 ≠ key := by
  rw [assign]
  split
  · rename_i present
    obtain ⟨there, listed, named⟩ := List.mem_map.mp present
    rw [Cells.values_alter, List.mem_map]
    constructor
    · rintro ⟨old, member, rfl⟩
      by_cases same : old.1 = key
      · exact Or.inl (if_pos same)
      · rw [if_neg same]
        exact Or.inr ⟨member, same⟩
    · rintro (rfl | ⟨member, differs⟩)
      · exact ⟨there, listed, if_pos named⟩
      · exact ⟨entry, member, if_neg differs⟩
  · rename_i absent
    refine Cells.mem_insertBefore.trans (or_congr_right ⟨fun member => ⟨member, ?_⟩, And.left⟩)
    rintro rfl
    exact absent (List.mem_map_of_mem member)

end Assoc

end Handles
