import Mathlib.Data.List.Basic
import Mathlib.Data.List.Chain
import Mathlib.Data.List.DropRight
import Mathlib.Data.List.Sort
import Mathlib.Tactic.Linarith

/-!
A log of records under increasing sequence numbers, divided into lanes that are cut short
from their old end. A store keeps such a log in five tables; here the tables are tied to
one list, the live entries in sequence order: the index by key and the index of mentions
say exactly what the entries say, each lane lists the numbers of its entries in order, and
the tip of a lane is its last entry.
-/

namespace RingLog

open Std

section OrderedMaps

variable {Value : Type} {table after : ExtTreeMap Nat Value}

abbrev Ascending (entries : List (Nat × Value)) : Prop :=
  entries.Pairwise fun first second => first.1 < second.1

theorem toList_sorted (table : ExtTreeMap Nat Value) : Ascending table.toList :=
  ExtTreeMap.ordered_keys_toList.imp fun below => Nat.compare_eq_lt.mp below

theorem toList_unique {entries : List (Nat × Value)}
    (sorted : Ascending entries)
    (same : ∀ seq value, (seq, value) ∈ entries ↔ table[seq]? = some value) :
    table.toList = entries := by
  refine List.Perm.eq_of_pairwise ?_ (toList_sorted table) sorted ?_
  · intro first second _ _ below above
    omega
  · refine (List.perm_ext_iff_of_nodup ?_ ?_).mpr fun entry => ?_
    · exact (toList_sorted table).imp fun below same => by simp [same] at below
    · exact sorted.imp fun below same => by simp [same] at below
    · rw [same, ExtTreeMap.mem_toList_iff_getElem?_eq_some]

theorem toList_insert_last {next : Nat} (value : Value)
    (below : ∀ seq value, table[seq]? = some value → seq < next) :
    (table.insert next value).toList = table.toList ++ [(next, value)] := by
  refine toList_unique ?_ fun seq found => ?_
  · refine List.pairwise_append.mpr ⟨toList_sorted table, List.pairwise_singleton _ _, ?_⟩
    rintro ⟨seq, old⟩ member _ last
    obtain rfl := List.mem_singleton.mp last
    exact below seq old (ExtTreeMap.mem_toList_iff_getElem?_eq_some.mp member)
  · rw [List.mem_append, ExtTreeMap.mem_toList_iff_getElem?_eq_some, List.mem_singleton,
      Prod.mk.injEq, ExtTreeMap.getElem?_insert]
    by_cases same : next = seq
    · subst same
      have unused : table[next]? ≠ some found := fun used => Nat.lt_irrefl _ (below next found used)
      simp [unused, eq_comm]
    · have apart : seq ≠ next := fun equal => same equal.symm
      simp [same, apart]

theorem toList_insert_existing {seq : Nat} {old : Value} (value : Value)
    (present : table[seq]? = some old) :
    (table.insert seq value).toList = table.toList.map fun entry =>
    if entry.1 = seq then (seq, value) else entry := by
  refine toList_unique ?_ fun other found => ?_
  · refine List.pairwise_map.mpr ((toList_sorted table).imp fun {first second} below => ?_)
    by_cases one : first.1 = seq <;> by_cases two : second.1 = seq <;> simp [one, two] <;> omega
  · rw [List.mem_map, ExtTreeMap.getElem?_insert]
    constructor
    · rintro ⟨⟨place, kept⟩, member, same⟩
      rw [ExtTreeMap.mem_toList_iff_getElem?_eq_some] at member
      by_cases here : place = seq
      · simp only [here, if_true, Prod.mk.injEq] at same
        simp [same.1, same.2]
      · simp only [here, if_false, Prod.mk.injEq] at same
        obtain ⟨rfl, rfl⟩ := same
        have apart : ¬seq = place := fun equal => here equal.symm
        simp [apart, member]
    · intro looked
      by_cases here : seq = other
      · subst here
        simp only [ReflCmp.compare_self, if_true, Option.some.injEq] at looked
        exact ⟨(seq, old), ExtTreeMap.mem_toList_iff_getElem?_eq_some.mpr present, by simp [looked]⟩
      · rw [if_neg (by simpa using here)] at looked
        refine ⟨(other, found), ExtTreeMap.mem_toList_iff_getElem?_eq_some.mpr looked, ?_⟩
        rw [if_neg fun equal => here equal.symm]

theorem toList_without {dropped : List Nat}
    (kept : ∀ seq : Nat, after[seq]? = if seq ∈ dropped then none else table[seq]?) :
    after.toList = table.toList.filter fun entry => entry.1 ∉ dropped := by
  refine toList_unique ((toList_sorted table).sublist List.filter_sublist) fun seq value => ?_
  rw [List.mem_filter, ExtTreeMap.mem_toList_iff_getElem?_eq_some, kept]
  by_cases gone : seq ∈ dropped <;> simp [gone]

theorem dense_getElem? {count : Nat} (dense : ∀ seq : Nat, seq ∈ table ↔ seq < count) :
    table.size = count ∧ ∀ seq : Nat, (table.toList.map Prod.snd)[seq]? = table[seq]? := by
  have keys : table.toList.map Prod.fst = List.range count := by
    refine List.Perm.eq_of_pairwise (fun first second _ _ below above => ?_)
      (List.pairwise_map.mpr (toList_sorted table)) List.pairwise_lt_range ?_
    · omega
    · refine (List.perm_ext_iff_of_nodup ?_ List.nodup_range).mpr fun seq => ?_
      · exact List.pairwise_map.mpr ((toList_sorted table).imp fun below => Nat.ne_of_lt below)
      · rw [ExtTreeMap.map_fst_toList_eq_keys, ExtTreeMap.mem_keys, dense, List.mem_range]
  have size : table.toList.length = count := by
    rw [← List.length_map Prod.fst, keys, List.length_range]
  refine ⟨ExtTreeMap.length_toList.symm.trans size, fun seq => ?_⟩
  by_cases within : seq < count
  · have place : (table.toList.map Prod.fst)[seq]? = some seq := by
      rw [keys, List.getElem?_range within]
    rw [List.getElem?_map] at place ⊢
    obtain ⟨⟨key, value⟩, entry, rfl⟩ := Option.map_eq_some_iff.mp place
    rw [entry, Option.map_some]
    exact (ExtTreeMap.mem_toList_iff_getElem?_eq_some.mp (List.mem_of_getElem? entry)).symm
  · have absent : seq ∉ table := fun member => within ((dense seq).mp member)
    rw [ExtTreeMap.getElem?_eq_none absent, List.getElem?_eq_none]
    rw [List.length_map]
    omega

end OrderedMaps

variable {Record Key Lane : Type} [Ord Key] [TransOrd Key]

structure Logs (key : Record → Key) (mentions : Record → List Key) (records : ExtTreeMap Nat Record)
    (index : ExtTreeMap Key Nat) (mentioned : ExtTreeMap Key (List Nat)) (next : Nat) : Prop where
  below : ∀ (seq : Nat) (record : Record), records[seq]? = some record → seq < next
  indexed : ∀ (k : Key) (seq : Nat), index[k]? = some seq ↔ ∃ record, records[seq]? = some record ∧
  key record = k
  listed : ∀ (k : Key) (seq : Nat), seq ∈ mentioned.getD k [] ↔
    ∃ record, records[seq]? = some record ∧ k ∈ mentions record

section Logs

variable {key : Record → Key} {mentions : Record → List Key} {records : ExtTreeMap Nat Record}
  {index index' : ExtTreeMap Key Nat} {mentioned mentioned' : ExtTreeMap Key (List Nat)}
  {next seq : Nat} {record old : Record}

theorem logs_empty : Logs key mentions (∅ : ExtTreeMap Nat Record) ∅ ∅ next := by
  constructor <;> simp

section

variable (logs : Logs key mentions records index mentioned next)

include logs

theorem Logs.unique {other : Nat}
    (found : records[seq]? = some record) (otherFound : records[other]? = some old)
    (same : key record = key old) :
    seq = other := by
  have first := (logs.indexed (key record) seq).mpr ⟨record, found, rfl⟩
  have second := (logs.indexed (key record) other).mpr ⟨old, otherFound, same.symm⟩
  exact Option.mem_unique first second

theorem Logs.append (fresh : ∀ (seq : Nat) (old : Record), records[seq]? = some old →
    key old ≠ key record) (indexedNow : ∀ (k : Key) (seq : Nat), index'[k]? = some seq ↔
      index[k]? = some seq ∨ k = key record ∧ seq = next)
    (mentionedNow : ∀ (k : Key) (seq : Nat), seq ∈ mentioned'.getD k [] ↔
      seq ∈ mentioned.getD k [] ∨ seq = next ∧ k ∈ mentions record) :
    Logs key mentions (records.insert next record) index' mentioned' (next + 1) := by
  have inserted : ∀ (seq : Nat) (found : Record), (records.insert next record)[seq]? = some found ↔
      records[seq]? = some found ∨ seq = next ∧ found = record := by
    intro seq found
    rw [ExtTreeMap.getElem?_insert]
    by_cases same : next = seq
    · subst same
      have unused : records[next]? ≠ some found := fun used =>
        Nat.lt_irrefl _ (logs.below next found used)
      simp [unused, eq_comm]
    · have apart : ¬seq = next := fun equal => same equal.symm
      simp [same, apart]
  refine ⟨?_, ?_, ?_⟩
  · intro seq found live
    rcases (inserted seq found).mp live with before | ⟨rfl, -⟩
    · exact Nat.lt_succ_of_lt (logs.below seq found before)
    · exact Nat.lt_succ_self seq
  · intro k seq
    rw [indexedNow, logs.indexed]
    constructor
    · rintro (⟨found, live, named⟩ | ⟨rfl, rfl⟩)
      · exact ⟨found, (inserted seq found).mpr (Or.inl live), named⟩
      · exact ⟨record, (inserted seq record).mpr (Or.inr ⟨rfl, rfl⟩), rfl⟩
    · rintro ⟨found, live, rfl⟩
      rcases (inserted seq found).mp live with before | ⟨rfl, rfl⟩
      · exact Or.inl ⟨found, before, rfl⟩
      · exact Or.inr ⟨rfl, rfl⟩
  · intro k seq
    rw [mentionedNow, logs.listed]
    constructor
    · rintro (⟨found, live, named⟩ | ⟨rfl, named⟩)
      · exact ⟨found, (inserted seq found).mpr (Or.inl live), named⟩
      · exact ⟨record, (inserted seq record).mpr (Or.inr ⟨rfl, rfl⟩), named⟩
    · rintro ⟨found, live, named⟩
      rcases (inserted seq found).mp live with before | ⟨rfl, rfl⟩
      · exact Or.inl ⟨found, before, named⟩
      · exact Or.inr ⟨rfl, named⟩

theorem Logs.replace (found : records[seq]? = some old)
    (sameKey : key record = key old) (sameMentions : mentions record = mentions old) :
    Logs key mentions (records.insert seq record) index mentioned next := by
  -- whatever the two indexes read of a record is the same before and after
  have reads : ∀ (property : Record → Prop), (property record ↔ property old) → ∀ other : Nat,
      (∃ live, (records.insert seq record)[other]? = some live ∧ property live) ↔
        ∃ live, records[other]? = some live ∧ property live := by
    intro property same other
    rw [ExtTreeMap.getElem?_insert]
    by_cases here : seq = other
    · subst here
      simp [found, same]
    · simp [here]
  refine ⟨?_, ?_, ?_⟩
  · intro other live present
    obtain ⟨before, known, -⟩ := (reads (fun _ => True) Iff.rfl other).mp ⟨live, present, trivial⟩
    exact logs.below other before known
  · intro k other
    rw [logs.indexed, reads (fun live => key live = k) (by rw [sameKey])]
  · intro k other
    rw [logs.listed, reads (fun live => k ∈ mentions live) (by rw [sameMentions])]

theorem Logs.toList_replace [DecidableEq Key]
    (found : records[seq]? = some old) (sameKey : key record = key old) :
    (records.insert seq record).toList =
      records.toList.map fun entry =>
      if key entry.2 = key record then (entry.1, record) else entry := by
  rw [toList_insert_existing record found]
  refine List.map_congr_left fun entry member => ?_
  have live := ExtTreeMap.mem_toList_iff_getElem?_eq_some.mp member
  have here : entry.1 = seq ↔ key entry.2 = key record := by
    constructor
    · intro same
      rw [same, found] at live
      rw [sameKey, Option.some.inj live]
    · exact fun same => logs.unique live found (same.trans sameKey)
  by_cases same : entry.1 = seq
  · rw [if_pos same, if_pos (here.mp same), same]
  · rw [if_neg same, if_neg fun named => same (here.mpr named)]

theorem Logs.drop [LawfulEqOrd Key] (found : records[seq]? = some record)
    (mentionedNow : ∀ (k : Key) (other : Nat), other ∈ mentioned'.getD k [] ↔
      other ∈ mentioned.getD k [] ∧ ¬(other = seq ∧ k ∈ mentions record)) :
    Logs key mentions (records.erase seq) (index.erase (key record)) mentioned' next := by
  have erased : ∀ (other : Nat) (live : Record), (records.erase seq)[other]? = some live ↔
      records[other]? = some live ∧ other ≠ seq := by
    intro other live
    rw [ExtTreeMap.getElem?_erase]
    by_cases here : seq = other
    · subst here
      simp
    · have apart : other ≠ seq := fun equal => here equal.symm
      simp [here, apart]
  refine ⟨?_, ?_, ?_⟩
  · intro other live present
    exact logs.below other live ((erased other live).mp present).1
  · intro k other
    rw [ExtTreeMap.getElem?_erase]
    constructor
    · intro entry
      split at entry
      · cases entry
      · rename_i different
        obtain ⟨live, present, rfl⟩ := (logs.indexed k other).mp entry
        refine ⟨live, (erased other live).mpr ⟨present, ?_⟩, rfl⟩
        rintro rfl
        obtain rfl := Option.mem_unique present found
        exact different ReflCmp.compare_self
    · rintro ⟨live, present, rfl⟩
      obtain ⟨before, apart⟩ := (erased other live).mp present
      have different : key record ≠ key live := fun same =>
        apart (logs.unique before found same.symm)
      rw [if_neg fun equal => different (LawfulEqCmp.compare_eq_iff_eq.mp equal)]
      exact (logs.indexed _ other).mpr ⟨live, before, rfl⟩
  · intro k other
    rw [mentionedNow, logs.listed]
    constructor
    · rintro ⟨⟨live, present, named⟩, kept⟩
      refine ⟨live, (erased other live).mpr ⟨present, ?_⟩, named⟩
      rintro rfl
      obtain rfl := Option.mem_unique present found
      exact kept ⟨rfl, named⟩
    · rintro ⟨live, present, named⟩
      obtain ⟨before, apart⟩ := (erased other live).mp present
      exact ⟨⟨live, before, named⟩, fun gone => apart gone.1⟩

end

end Logs

section Lanes

variable [DecidableEq Lane] {lane : Record → Lane} {l : Lane} {entries : List (Nat × Record)}

def onLane (lane : Record → Lane) (entries : List (Nat × Record)) (l : Lane) :
    List (Nat × Record) :=
  entries.filter fun entry => lane entry.2 = l

/-- Only the newest `keep` entries of lane `l` stay; the other lanes are untouched. -/
def pruned (lane : Record → Lane) (l : Lane) (keep : Nat) (entries : List (Nat × Record)) :
    List (Nat × Record) :=
  entries.filter fun entry =>
    entry.1 ∉ ((onLane lane entries l).take ((onLane lane entries l).length - keep)).map Prod.fst

theorem mem_onLane_iff {entry : Nat × Record} :
    entry ∈ onLane lane entries l ↔ entry ∈ entries ∧ lane entry.2 = l := by
  simp [onLane]

theorem entry_unique (sorted : Ascending entries) {first second : Nat × Record}
    (one : first ∈ entries) (other : second ∈ entries) (same : first.1 = second.1) :
    first = second := by
  have numbers : (entries.map Prod.fst).Nodup :=
    List.pairwise_map.mpr (sorted.imp fun below => Nat.ne_of_lt below)
  exact List.inj_on_of_nodup_map numbers one other same

theorem filter_not_taken (sorted : Ascending entries) (cut : Nat) :
    entries.filter (fun entry => entry.1 ∉ (entries.take cut).map Prod.fst) = entries.drop cut := by
  have parts := sorted
  rw [← List.take_append_drop cut entries, Ascending, List.pairwise_append] at parts
  conv_lhs => rw [← List.take_append_drop cut entries, List.filter_append]
  have front : (entries.take cut).filter
      (fun entry => entry.1 ∉ ((entries.take cut ++ entries.drop cut).take cut).map Prod.fst) =
      [] := by
    rw [List.take_append_drop, List.filter_eq_nil_iff]
    intro entry member
    rw [decide_eq_true_eq, not_not]
    exact List.mem_map_of_mem member
  have back : (entries.drop cut).filter
      (fun entry => entry.1 ∉ ((entries.take cut ++ entries.drop cut).take cut).map Prod.fst) =
      entries.drop cut := by
    rw [List.take_append_drop, List.filter_eq_self]
    intro entry member
    rw [decide_eq_true_eq, List.mem_map]
    rintro ⟨earlier, taken, same⟩
    have below := parts.2.2 earlier taken entry member
    omega
  rw [front, back, List.nil_append]

theorem onLane_pruned_self (sorted : Ascending entries) (keep : Nat) :
    onLane lane (pruned lane l keep entries) l =
      (onLane lane entries l).drop ((onLane lane entries l).length - keep) := by
  have laneSorted : Ascending (onLane lane entries l) :=
    sorted.sublist List.filter_sublist
  rw [← filter_not_taken laneSorted]
  simp only [onLane, pruned, List.filter_filter, Bool.and_comm]

theorem onLane_pruned_other {other : Lane} (sorted : Ascending entries)
    (keep : Nat) (different : other ≠ l) :
    onLane lane (pruned lane l keep entries) other = onLane lane entries other := by
  have swapped :
    onLane lane (pruned lane l keep entries) other = (onLane lane entries other).filter fun entry =>
      entry.1 ∉ ((onLane lane entries l).take ((onLane lane entries l).length - keep)).map
        Prod.fst := by
    simp only [onLane, pruned, List.filter_filter, Bool.and_comm]
  rw [swapped, List.filter_eq_self]
  intro entry member
  obtain ⟨listed, here⟩ := mem_onLane_iff.mp member
  rw [decide_eq_true_eq, List.mem_map]
  rintro ⟨gone, taken, same⟩
  obtain ⟨goneListed, there⟩ := mem_onLane_iff.mp (List.mem_of_mem_take taken)
  obtain rfl := entry_unique sorted goneListed listed same
  exact different (here.symm.trans there)

theorem onLane_map {Other : Type} {change : Other → Record} {entries : List (Nat × Other)} :
    onLane lane (entries.map fun entry => (entry.1, change entry.2)) l =
      (onLane (lane ∘ change) entries l).map fun entry => (entry.1, change entry.2) := by
  rw [onLane, List.filter_map]
  rfl

theorem pruned_map {Other : Type} {change : Other → Record} {entries : List (Nat × Other)}
    (keep : Nat) : pruned lane l keep (entries.map fun entry => (entry.1, change entry.2)) =
      (pruned (lane ∘ change) l keep entries).map fun entry => (entry.1, change entry.2) := by
  simp only [pruned, onLane_map, List.filter_map, List.length_map, ← List.map_take, List.map_map]
  rfl

variable [Ord Lane] [TransOrd Lane] {records after : ExtTreeMap Nat Record}
  {tips : ExtTreeMap Lane Nat} {seqs : ExtTreeMap Lane (List Nat)} {next : Nat} {record : Record}

structure Laned (lane : Record → Lane) (records : ExtTreeMap Nat Record)
    (tips : ExtTreeMap Lane Nat) (seqs : ExtTreeMap Lane (List Nat)) : Prop where
  members : ∀ l : Lane, seqs.getD l [] = (onLane lane records.toList l).map Prod.fst
  tip : ∀ l : Lane, tips[l]? = (onLane lane records.toList l).getLast?.map Prod.fst

theorem laned_empty : Laned lane (∅ : ExtTreeMap Nat Record) ∅ ∅ := by
  constructor <;> simp [onLane]

theorem Laned.append [LawfulEqOrd Lane] (laned : Laned lane records tips seqs)
    (below : ∀ seq record, records[seq]? = some record → seq < next) :
    Laned lane (records.insert next record) (tips.insert (lane record) next)
      (seqs.insert (lane record) (seqs.getD (lane record) [] ++ [next])) := by
  have grown : ∀ l, onLane lane (records.insert next record).toList l =
      onLane lane records.toList l ++ if lane record = l then [(next, record)] else [] := by
    intro l
    rw [toList_insert_last record below, onLane, List.filter_append]
    congr 1
    by_cases here : lane record = l <;> simp [here]
  refine ⟨fun l => ?_, fun l => ?_⟩
  · rw [grown, ExtTreeMap.getD_insert]
    by_cases here : lane record = l
    · subst here
      simp [laned.members]
    · simp [here, laned.members]
  · rw [grown, ExtTreeMap.getElem?_insert]
    by_cases here : lane record = l
    · subst here
      simp
    · simp [here, laned.tip]

theorem Laned.replace {seq : Nat} {old : Record} (laned : Laned lane records tips seqs)
    (found : records[seq]? = some old) (sameLane : lane record = lane old) :
    Laned lane (records.insert seq record) tips seqs := by
  have same : ∀ l, (onLane lane (records.insert seq record).toList l).map Prod.fst =
      (onLane lane records.toList l).map Prod.fst := by
    intro l
    rw [toList_insert_existing record found, onLane, List.filter_map, List.map_map, onLane]
    have kept : (records.toList.filter
        ((fun entry => decide (lane entry.2 = l)) ∘ fun entry =>
          if entry.1 = seq then (seq, record) else entry)) =
          records.toList.filter fun entry => lane entry.2 = l := by
      refine List.filter_congr fun entry member => ?_
      have live := ExtTreeMap.mem_toList_iff_getElem?_eq_some.mp member
      by_cases here : entry.1 = seq
      · rw [here, found] at live
        simp [here, sameLane, Option.some.inj live]
      · simp [here]
    rw [kept]
    refine List.map_congr_left fun entry _ => ?_
    by_cases here : entry.1 = seq <;> simp [here]
  refine ⟨fun l => (laned.members l).trans (same l).symm, fun l => ?_⟩
  rw [laned.tip l, ← List.getLast?_map, ← List.getLast?_map, same]

theorem Laned.prune [LawfulEqOrd Lane] {keep : Nat} (laned : Laned lane records tips seqs)
    (l : Lane) (positive : 0 < keep) (kept : after.toList = pruned lane l keep records.toList) :
    Laned lane after tips
    (seqs.insert l ((seqs.getD l []).drop ((seqs.getD l []).length - keep))) := by
  have sorted := toList_sorted records
  refine ⟨fun other => ?_, fun other => ?_⟩
  · rw [kept, ExtTreeMap.getD_insert]
    by_cases here : l = other
    · subst here
      rw [onLane_pruned_self sorted]
      simp [laned.members, List.map_drop]
    · rw [onLane_pruned_other sorted keep fun same => here same.symm]
      simp [here, laned.members]
  · rw [kept]
    by_cases here : l = other
    · subst here
      rw [onLane_pruned_self sorted, laned.tip]
      cases listed : onLane lane records.toList l with
      | nil => simp
      | cons first rest =>
          rw [List.getLast?_drop, if_neg]
          simp only [List.length_cons]
          omega
    · rw [onLane_pruned_other sorted keep fun same => here same.symm, laned.tip]

def track (lane : Record → Lane) (trackers : ExtTreeMap Lane Nat × ExtTreeMap Lane (List Nat))
    (entry : Nat × Record) : ExtTreeMap Lane Nat × ExtTreeMap Lane (List Nat) :=
  (trackers.1.insert (lane entry.2) entry.1,
    trackers.2.insert (lane entry.2) (trackers.2.getD (lane entry.2) [] ++ [entry.1]))

theorem track_spec [LawfulEqOrd Lane] (l : Lane) :
    (entries.foldl (track lane) (∅, ∅)).1[l]? = (onLane lane entries l).getLast?.map Prod.fst ∧
      (entries.foldl (track lane) (∅, ∅)).2[l]? =
        if onLane lane entries l = [] then none
        else some ((onLane lane entries l).map Prod.fst) := by
  induction entries using List.reverseRecOn with
  | nil => simp [onLane]
  | append_singleton front entry ih =>
      obtain ⟨tip, members⟩ := ih
      have grown : onLane lane (front ++ [entry]) l =
          onLane lane front l ++ if lane entry.2 = l then [entry] else [] := by
        rw [onLane, List.filter_append]
        by_cases here : lane entry.2 = l <;> simp [here, onLane]
      rw [List.foldl_append, List.foldl_cons, List.foldl_nil, track, grown,
        ExtTreeMap.getElem?_insert, ExtTreeMap.getElem?_insert]
      by_cases here : lane entry.2 = l
      · subst here
        rw [ExtTreeMap.getD_eq_getD_getElem?, members]
        by_cases first : onLane lane front (lane entry.2) = [] <;> simp [first]
      · simp [here, tip, members]

theorem Laned.eq_track [LawfulEqOrd Lane] (laned : Laned lane records tips seqs)
    (inhabited : ∀ (l : Lane) (members : List Nat), seqs[l]? = some members → members ≠ []) :
    records.toList.foldl (track lane) (∅, ∅) = (tips, seqs) := by
  refine Prod.ext (ExtTreeMap.ext_getElem? fun l => ?_) (ExtTreeMap.ext_getElem? fun l => ?_)
  · rw [(track_spec l).1, laned.tip]
  · have members := laned.members l
    rw [(track_spec l).2]
    rw [ExtTreeMap.getD_eq_getD_getElem?] at members
    cases listed : seqs[l]? with
    | none =>
        rw [listed, Option.getD_none] at members
        rw [if_pos (List.map_eq_nil_iff.mp members.symm)]
    | some numbers =>
        rw [listed, Option.getD_some] at members
        have some := inhabited l numbers listed
        rw [if_neg fun empty => some (by rw [members, empty, List.map_nil]), members]

end Lanes

section Neighbors

variable {Item : Type} {x y z : Item} {items ending : List Item}

theorem last_or_followed (member : x ∈ items) : items.getLast? = some x ∨ ∃ next,
    [x, next] <:+: items := by
  obtain ⟨before, after, rfl⟩ := List.append_of_mem member
  cases after with
  | nil => exact Or.inl (by simp)
  | cons next rest => exact Or.inr ⟨next, before, rest, by simp⟩

theorem forall_pair_iff {relation : Item → Item → Prop} :
    (∀ x y, [x, y] <:+: items → relation x y) ↔ items.IsChain relation := by
  rw [List.isChain_iff_forall_rel_of_append_cons_cons]
  constructor
  · rintro related x y before after rfl
    exact related x y ⟨before, after, by simp⟩
  · rintro related x y ⟨before, after, whole⟩
    exact related (by simpa using whole.symm)

theorem pair_concat (pair : [x, y] <:+: items ++ [z]) :
    [x, y] <:+: items ∨ items.getLast? = some x ∧ y = z := by
  obtain ⟨before, after, whole⟩ := pair
  rcases List.eq_nil_or_concat after with rfl | ⟨rest, last, rfl⟩
  · have ends : (before ++ [x]) ++ [y] = items ++ [z] := by simpa using whole
    obtain ⟨rfl, same⟩ := List.append_inj' ends rfl
    exact Or.inr ⟨by simp, List.singleton_inj.mp same⟩
  · have ends : (before ++ [x, y] ++ rest) ++ [last] = items ++ [z] := by simpa using whole
    obtain ⟨rfl, -⟩ := List.append_inj' ends rfl
    exact Or.inl ⟨before, rest, rfl⟩

theorem last_not_followed (distinct : items.Nodup) (last : items.getLast? = some x) :
    ¬[x, y] <:+: items := by
  rintro ⟨before, after, rfl⟩
  have later : x ∈ y :: after := by
    refine List.mem_of_getLast? ?_
    rw [← last, List.append_cons, List.append_assoc (before ++ [x]),
      List.getLast?_append_of_ne_nil _ (by simp)]
    rfl
  rw [List.append_assoc, List.nodup_append] at distinct
  exact (List.nodup_cons.mp distinct.2.1).1 later

theorem eq_of_between {Record : Type} {entries : List (Nat × Record)}
    {first second entry : Nat × Record} (sorted : Ascending entries)
    (pair : [first, second] <:+: entries)
    (member : entry ∈ entries) (above : first.1 < entry.1) (below : entry.1 ≤ second.1) :
    entry = second := by
  obtain ⟨before, after, rfl⟩ := pair
  simp only [List.append_assoc, List.cons_append, List.nil_append, List.pairwise_append,
    List.pairwise_cons] at sorted
  simp only [List.append_assoc, List.cons_append, List.nil_append, List.mem_append,
    List.mem_cons] at member
  obtain ⟨-, ⟨-, later, -⟩, earlier⟩ := sorted
  rcases member with old | rfl | rfl | new
  · have := earlier entry old first (by simp)
    omega
  · omega
  · rfl
  · have := later entry new
    omega

theorem countP_lt_of_mem {strong weak : Item → Bool} (implies : ∀ item ∈ items, strong item = true →
    weak item = true) (member : x ∈ items) (new : weak x = true)
    (old : ¬strong x = true) : items.countP strong < items.countP weak := by
  obtain ⟨before, after, rfl⟩ := List.append_of_mem member
  have early : before.countP strong ≤ before.countP weak :=
    List.countP_mono_left fun item listed => implies item (List.mem_append_left _ listed)
  have late : after.countP strong ≤ after.countP weak :=
    List.countP_mono_left fun item listed =>
      implies item (List.mem_append_right _ (List.mem_cons_of_mem _ listed))
  rw [List.countP_append, List.countP_append, List.countP_cons_of_pos new,
    List.countP_cons_of_neg old]
  omega

theorem pair_sublist_concat (pair : List.Sublist [x, y] (items ++ [z])) :
    List.Sublist [x, y] items ∨ x ∈ items ∧ y = z := by
  obtain ⟨front, back, whole, first, second⟩ := List.sublist_append_iff.mp pair
  rcases List.sublist_singleton.mp second with rfl | rfl
  · rw [List.append_nil] at whole
    exact Or.inl (whole ▸ first)
  · obtain ⟨rfl, same⟩ := List.append_inj' (show [x] ++ [y] = front ++ [z] from whole) rfl
    exact Or.inr ⟨List.singleton_sublist.mp first, List.singleton_inj.mp same⟩

theorem rtakeWhile_append {accepts : Item → Bool} (before : List Item)
    (all : ∀ item ∈ ending, accepts item = true) :
    (before ++ ending).rtakeWhile accepts = before.rtakeWhile accepts ++ ending := by
  induction ending using List.reverseRecOn with
  | nil => simp
  | append_singleton rest last ih =>
      rw [← List.append_assoc, List.rtakeWhile_concat_pos _ _ _ (all last (by simp)),
        ih fun item member => all item (by simp [member]), List.append_assoc]

theorem rtakeWhile_eq_iff {accepts : Item → Bool} (suffix : ending <:+ items)
    (all : ∀ item ∈ ending, accepts item = true) :
    items.rtakeWhile accepts = ending ↔ ∀ before item, items = before ++ item :: ending →
    accepts item = false := by
  obtain ⟨front, rfl⟩ := suffix
  rw [rtakeWhile_append front all, List.append_left_eq_self, List.rtakeWhile_eq_nil_iff]
  constructor
  · intro stops before item whole
    have split : front = before ++ [item] := List.append_cancel_right (by simpa using whole)
    subst split
    simpa using stops (by simp)
  · intro stops nonempty
    have whole : front ++ ending = front.dropLast ++ front.getLast nonempty :: ending := by
      conv_lhs => rw [← List.dropLast_append_getLast nonempty]
      simp
    simp [stops _ _ whole]

end Neighbors

end RingLog
