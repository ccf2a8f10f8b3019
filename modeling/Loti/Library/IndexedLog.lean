import Mathlib.Data.List.Basic
import Mathlib.Tactic.Linarith

/-!
A log of records under increasing sequence numbers with an index from each record's
key to its sequence number. Records may be replaced and erased; sequence numbers are
not reused.

`Lanes` divides the sequence numbers among lanes, each with its newest record as its tip.
A lane may be cut short from its old end, down to the tip.
-/

namespace IndexedLog

open Std

variable {Record Key : Type} [Ord Key] [TransOrd Key]

structure Coherent (key : Record → Key) (good : Record → Prop) (records : ExtTreeMap Nat Record)
    (index : ExtTreeMap Key Nat) (next : Nat) : Prop where
  live : ∀ (seq : Nat) (record : Record), records[seq]? = some record → good record ∧ seq < next
  indexed : ∀ (k : Key) (seq : Nat), index[k]? = some seq →
    ∃ record : Record, records[seq]? = some record ∧ key record = k

variable {key : Record → Key} {good : Record → Prop} {records : ExtTreeMap Nat Record}
  {index : ExtTreeMap Key Nat} {next seq : Nat} {record : Record}

theorem coherent_empty : Coherent key good (∅ : ExtTreeMap Nat Record)
    (∅ : ExtTreeMap Key Nat) next := by
  constructor <;> simp

section

variable (coherent : Coherent key good records index next)

include coherent

theorem Coherent.mono {better : Record → Prop}
    (implies : ∀ record, good record → better record) : Coherent key better records index next :=
  ⟨fun seq record found => ⟨implies record (coherent.live seq record found).1,
    (coherent.live seq record found).2⟩, coherent.indexed⟩

theorem Coherent.unused : next ∉ records := by
  intro member
  obtain ⟨old, found⟩ := Option.isSome_iff_exists.mp (ExtTreeMap.isSome_getElem?_iff_mem.mpr member)
  exact Nat.lt_irrefl _ (coherent.live _ _ found).2

theorem Coherent.lookup {k : Key}
    (entry : index[k]? = some seq) (found : records[seq]? = some record) :
    good record ∧ key record = k := by
  obtain ⟨live, same, named⟩ := coherent.indexed k seq entry
  obtain rfl : live = record := Option.mem_unique same found
  exact ⟨(coherent.live seq live found).1, named⟩

theorem Coherent.append {index' : ExtTreeMap Key Nat}
    (new : good record)
    (moved : ∀ (k : Key) (seq : Nat), index'[k]? = some seq →
      index[k]? = some seq ∨ k = key record ∧ seq = next) :
    Coherent key good (records.insert next record) index' (next + 1) := by
  refine ⟨?_, ?_⟩
  · intro seq found member
    simp only [ExtTreeMap.getElem?_insert, LawfulEqCmp.compare_eq_iff_eq] at member
    split at member
    · cases member
      exact ⟨new, by omega⟩
    · have old := coherent.live seq found member
      exact ⟨old.1, by omega⟩
  · intro k seq entry
    simp only [ExtTreeMap.getElem?_insert, LawfulEqCmp.compare_eq_iff_eq]
    rcases moved k seq entry with kept | ⟨rfl, rfl⟩
    · obtain ⟨old, found, named⟩ := coherent.indexed k seq kept
      have used := (coherent.live seq old found).2
      exact ⟨old, by rw [if_neg (by omega), found], named⟩
    · exact ⟨record, by simp, rfl⟩

theorem Coherent.replace (new : good record)
    (entry : index[key record]? = some seq) :
    Coherent key good (records.insert seq record) index next := by
  obtain ⟨old, found, named⟩ := coherent.indexed _ _ entry
  refine ⟨?_, ?_⟩
  · intro other kept member
    simp only [ExtTreeMap.getElem?_insert, LawfulEqCmp.compare_eq_iff_eq] at member
    split at member
    · rename_i same
      cases member
      exact ⟨new, same ▸ (coherent.live seq old found).2⟩
    · exact coherent.live other kept member
  · intro k other otherEntry
    obtain ⟨kept, otherFound, otherNamed⟩ := coherent.indexed k other otherEntry
    simp only [ExtTreeMap.getElem?_insert, LawfulEqCmp.compare_eq_iff_eq]
    by_cases same : seq = other
    · subst same
      obtain rfl : old = kept := Option.mem_unique found otherFound
      exact ⟨record, by simp, named.symm.trans otherNamed⟩
    · exact ⟨kept, by rw [if_neg same, otherFound], otherNamed⟩

theorem Coherent.erase [LawfulEqOrd Key]
    (found : records[seq]? = some record) :
    Coherent key good (records.erase seq) (index.erase (key record)) next := by
  refine ⟨?_, ?_⟩
  · intro other kept member
    simp only [ExtTreeMap.getElem?_erase, LawfulEqCmp.compare_eq_iff_eq] at member
    split at member
    · cases member
    · exact coherent.live other kept member
  · intro k other entry
    simp only [ExtTreeMap.getElem?_erase, LawfulEqCmp.compare_eq_iff_eq] at entry ⊢
    split at entry
    · cases entry
    · rename_i different
      obtain ⟨kept, otherFound, named⟩ := coherent.indexed k other entry
      refine ⟨kept, ?_, named⟩
      rw [if_neg, otherFound]
      rintro rfl
      obtain rfl : record = kept := Option.mem_unique found otherFound
      exact different (LawfulEqCmp.compare_eq_iff_eq.mpr named)

end

theorem insert_eq_self_iff {κ ν : Type} [Ord κ] [TransOrd κ] [LawfulEqOrd κ]
    {table : ExtTreeMap κ ν} {key : κ} {value : ν} : table.insert key value = table ↔
    table[key]? = some value := by
  constructor
  · intro same
    rw [← same, ExtTreeMap.getElem?_insert_self]
  · intro stands
    apply ExtTreeMap.ext_getElem?
    intro other
    rw [ExtTreeMap.getElem?_insert]
    split
    · rename_i equal
      rw [← LawfulEqOrd.eq_of_compare equal, stands]
    · rfl

theorem insertIfNew_of_absent {κ ν : Type} [Ord κ] [TransOrd κ] [LawfulEqOrd κ]
    {table : ExtTreeMap κ ν} {key : κ} {value : ν} (absent : key ∉ table) :
    table.insertIfNew key value = table.insert key value := by
  apply ExtTreeMap.ext_getElem?
  intro other
  rw [ExtTreeMap.getElem?_insertIfNew, ExtTreeMap.getElem?_insert]
  by_cases here : compare key other = .eq
  · rw [if_pos ⟨here, absent⟩, if_pos here]
  · rw [if_neg fun both => here both.1, if_neg here]

section Lanes

variable {Lane : Type} [Ord Lane] [TransOrd Lane]

structure Lanes (live : Nat → Prop) (tips : ExtTreeMap Lane Nat) (seqs : ExtTreeMap Lane (List Nat))
    (next : Nat) : Prop where
  listed : ∀ (lane : Lane) (members : List Nat), seqs[lane]? = some members →
    ∀ seq ∈ members, live seq ∧ seq < next
  increasing : ∀ (lane : Lane) (members : List Nat), seqs[lane]? = some members →
    members.Pairwise (· < ·)
  disjoint : ∀ (lane other : Lane) (members others : List Nat), seqs[lane]? = some members →
    seqs[other]? = some others → ∀ seq ∈ members, seq ∈ others → lane = other
  tip : ∀ (lane : Lane) (seq : Nat), tips[lane]? = some seq →
    ∃ members : List Nat, seqs[lane]? = some members ∧ members.getLast? = some seq

variable {live live' : Nat → Prop} {tips : ExtTreeMap Lane Nat} {seqs : ExtTreeMap Lane (List Nat)}
    {lane : Lane}
  {members : List Nat}

theorem lanes_empty : Lanes live (∅ : ExtTreeMap Lane Nat)
    (∅ : ExtTreeMap Lane (List Nat)) next := by
  constructor <;> simp

section

variable (lanes : Lanes live tips seqs next)

include lanes

theorem Lanes.mono (implies : ∀ seq, live seq → live' seq) :
    Lanes live' tips seqs next :=
  ⟨fun lane members found seq member =>
    ⟨implies seq (lanes.listed lane members found seq member).1,
      (lanes.listed lane members found seq member).2⟩,
    lanes.increasing, lanes.disjoint, lanes.tip⟩

theorem Lanes.tip_live (found : tips[lane]? = some seq) : live seq := by
  obtain ⟨members, place, last⟩ := lanes.tip lane seq found
  exact (lanes.listed lane members place seq (List.mem_of_getLast? last)).1

theorem Lanes.tip_kept {cut : Nat} (found : tips[lane]? = some seq)
    (place : seqs[lane]? = some members) (short : cut < members.length) :
    seq ∉ members.take cut := by
  obtain ⟨same, samePlace, last⟩ := lanes.tip lane seq found
  obtain rfl := Option.mem_unique samePlace place
  have ordered := lanes.increasing lane same place
  rw [← List.take_append_drop cut same, List.pairwise_append] at ordered
  have kept : seq ∈ same.drop cut := by
    rw [← List.take_append_drop cut same, List.getLast?_append_of_ne_nil _
      (by simpa using short)] at last
    exact List.mem_of_getLast? last
  exact fun dropped => Nat.lt_irrefl seq (ordered.2.2 seq dropped seq kept)

theorem Lanes.newest_kept {cut : Nat} (place : seqs[lane]? = some members)
    (short : cut < members.length) : next - 1 ∉ members.take cut := by
  intro dropped
  have ordered := lanes.increasing lane members place
  rw [← List.take_append_drop cut members, List.pairwise_append] at ordered
  obtain ⟨later, rest, kept⟩ := List.exists_cons_of_ne_nil
    (List.drop_eq_nil_iff.not.mpr (Nat.not_le.mpr short))
  have member : later ∈ members.drop cut := kept ▸ List.mem_cons_self
  have above := ordered.2.2 _ dropped later member
  have below := (lanes.listed lane members place later (List.mem_of_mem_drop member)).2
  omega

end

variable [LawfulEqOrd Lane]

theorem getElem?_insert_other {Value : Type} {table : ExtTreeMap Lane Value} {other : Lane}
    (value : Value) (different : lane ≠ other) :
    (table.insert lane value)[other]? = table[other]? := by
  rw [ExtTreeMap.getElem?_insert, if_neg]
  exact fun same => different (LawfulEqCmp.compare_eq_iff_eq.mp same)

theorem getElem?_insert_cases {Value : Type} {table : ExtTreeMap Lane Value} {other : Lane}
    {value found : Value} (entry : (table.insert lane value)[other]? = some found) :
    lane = other ∧ value = found ∨ lane ≠ other ∧ table[other]? = some found := by
  rw [ExtTreeMap.getElem?_insert] at entry
  split at entry
  · rename_i same
    exact Or.inl ⟨LawfulEqCmp.compare_eq_iff_eq.mp same, Option.some.inj entry⟩
  · rename_i different
    exact Or.inr ⟨fun same => different (LawfulEqCmp.compare_eq_iff_eq.mpr same), entry⟩

theorem getElem?_appended {other : Lane} {others : List Nat}
    (found : (seqs.insert lane (seqs.getD lane [] ++ [next]))[other]? = some others) :
    lane = other ∧
      (∃ old : List Nat, (seqs[lane]? = some old ∨ old = []) ∧ others = old ++ [next]) ∨
      lane ≠ other ∧ seqs[other]? = some others := by
  rcases getElem?_insert_cases found with ⟨same, rfl⟩ | ⟨different, place⟩
  · refine Or.inl ⟨same, seqs.getD lane [], ?_, rfl⟩
    rw [ExtTreeMap.getD_eq_getD_getElem?]
    cases seqs[lane]? <;> simp
  · exact Or.inr ⟨different, place⟩

theorem Lanes.append (lane : Lane) (lanes : Lanes live tips seqs next) :
    Lanes (fun seq => live seq ∨ seq = next) (tips.insert lane next)
      (seqs.insert lane (seqs.getD lane [] ++ [next])) (next + 1) := by
  have old : ∀ {members : List Nat}, (seqs[lane]? = some members ∨ members = []) →
      ∀ seq ∈ members, live seq ∧ seq < next := by
    rintro members (place | rfl) seq member
    · exact lanes.listed lane members place seq member
    · cases member
  refine ⟨?_, ?_, ?_, ?_⟩
  · intro other others found seq member
    rcases getElem?_appended found with ⟨rfl, members, place, rfl⟩ | ⟨-, place⟩
    · rcases List.mem_append.mp member with before | new
      · have known := old place seq before
        exact ⟨Or.inl known.1, by omega⟩
      · obtain rfl := List.mem_singleton.mp new
        exact ⟨Or.inr rfl, by omega⟩
    · have known := lanes.listed other others place seq member
      exact ⟨Or.inl known.1, by omega⟩
  · intro other others found
    rcases getElem?_appended found with ⟨rfl, members, place, rfl⟩ | ⟨-, place⟩
    · refine List.pairwise_append.mpr
        ⟨?_, List.pairwise_singleton _ _, fun seq before last new => ?_⟩
      · rcases place with place | rfl
        · exact lanes.increasing lane members place
        · exact List.Pairwise.nil
      · obtain rfl := List.mem_singleton.mp new
        exact (old place seq before).2
    · exact lanes.increasing other others place
  · intro one other ones others oneFound otherFound seq oneMember otherMember
    -- the new number is on one lane only, the old ones are where they were
    rcases getElem?_appended oneFound with ⟨rfl, first, firstPlace, rfl⟩ | ⟨oneDiffers, onePlace⟩
    · rcases getElem?_appended otherFound with
        ⟨rfl, second, secondPlace, rfl⟩ | ⟨otherDiffers, otherPlace⟩
      · rfl
      · have known := (lanes.listed other others otherPlace seq otherMember).2
        rcases List.mem_append.mp oneMember with before | new
        · rcases firstPlace with firstPlace | rfl
          · exact lanes.disjoint lane other first others firstPlace otherPlace seq
              before otherMember
          · cases before
        · have := List.mem_singleton.mp new
          omega
    · have known := (lanes.listed one ones onePlace seq oneMember).2
      rcases getElem?_appended otherFound with
        ⟨rfl, second, secondPlace, rfl⟩ | ⟨otherDiffers, otherPlace⟩
      · rcases List.mem_append.mp otherMember with before | new
        · rcases secondPlace with secondPlace | rfl
          · exact lanes.disjoint one lane ones second onePlace secondPlace seq oneMember before
          · cases before
        · have := List.mem_singleton.mp new
          omega
      · exact lanes.disjoint one other ones others onePlace otherPlace seq oneMember otherMember
  · intro other seq found
    rcases getElem?_insert_cases found with ⟨rfl, rfl⟩ | ⟨different, place⟩
    · exact ⟨_, ExtTreeMap.getElem?_insert_self, by simp⟩
    · obtain ⟨members, listed, last⟩ := lanes.tip other seq place
      exact ⟨members, by rw [getElem?_insert_other _ different, listed], last⟩

theorem Lanes.prune {cut : Nat} (lanes : Lanes live tips seqs next)
    (place : seqs[lane]? = some members) (short : cut < members.length) :
    Lanes (fun seq => live seq ∧ seq ∉ members.take cut) tips
    (seqs.insert lane (members.drop cut)) next := by
  have ordered := lanes.increasing lane members place
  rw [← List.take_append_drop cut members, List.pairwise_append] at ordered
  -- every lane lists a part of what it listed, none of it dropped
  have kept : ∀ {other : Lane} {others : List Nat},
      (seqs.insert lane (members.drop cut))[other]? = some others →
      ∃ before, seqs[other]? = some before ∧ List.Sublist others before ∧ ∀ seq ∈ others,
      seq ∉ members.take cut := by
    intro other others found
    rcases getElem?_insert_cases found with ⟨rfl, rfl⟩ | ⟨different, old⟩
    · exact ⟨members, place, List.drop_sublist cut members, fun seq member dropped =>
        Nat.lt_irrefl seq (ordered.2.2 seq dropped seq member)⟩
    · exact ⟨others, old, List.Sublist.refl others, fun seq member dropped =>
        different (lanes.disjoint lane other members others place old seq
          (List.mem_of_mem_take dropped) member)⟩
  refine ⟨?_, ?_, ?_, ?_⟩
  · intro other others found seq member
    obtain ⟨before, old, part, safe⟩ := kept found
    have known := lanes.listed other before old seq (part.subset member)
    exact ⟨⟨known.1, safe seq member⟩, known.2⟩
  · intro other others found
    obtain ⟨before, old, part, -⟩ := kept found
    exact (lanes.increasing other before old).sublist part
  · intro one other ones others oneFound otherFound seq oneMember otherMember
    obtain ⟨first, firstOld, firstPart, -⟩ := kept oneFound
    obtain ⟨second, secondOld, secondPart, -⟩ := kept otherFound
    exact lanes.disjoint one other first second firstOld secondOld seq (firstPart.subset oneMember)
      (secondPart.subset otherMember)
  · intro other seq found
    obtain ⟨before, old, last⟩ := lanes.tip other seq found
    by_cases same : lane = other
    · subst same
      obtain rfl := Option.mem_unique old place
      refine ⟨_, ExtTreeMap.getElem?_insert_self, ?_⟩
      rwa [← List.take_append_drop cut before, List.getLast?_append_of_ne_nil _
        (by simpa using short)] at last
    · exact ⟨before, by rw [getElem?_insert_other _ same, old], last⟩

end Lanes

end IndexedLog
