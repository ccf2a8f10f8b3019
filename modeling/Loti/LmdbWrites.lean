import Loti.LmdbEncoding

/-!
The writes of the port on a file that holds a store. LMDB fails only when its map is full, and only
the writes that `durable` retries meet that; the map has grown before the next attempt. Every write
then ends with a file that holds the store after the write, and with the same number.
-/

namespace Loti.LmdbFile

open Std StateExcept Transactions TableEncoding

/-- How the calls of a write end: all succeed, except that the map may be full where `full` is
given. It is not full again at once. -/
structure Mild (full : Prop) (script : List (Option ErrorCode)) : Prop where
  codes : ∀ outcome ∈ script, outcome = none ∨ full ∧ outcome = some .mapFull
  grown : script.IsChain fun first second => first = none ∨ second = none

structure At (s : LmdbFile) (t : Tables) (file : LmdbFile) : Prop where
  writer : file.env.writer = some t
  within : s.env.Within file.env
  counters : file.counters = s.counters
  script : file.env.script <:+ s.env.script

def Filled (s after : LmdbFile) : Prop := some .mapFull :: after.env.script <:+ s.env.script

variable {full : Prop} {s file after : LmdbFile} {t t' : Tables} {script : List (Option ErrorCode)}
  {check : Option ErrorCode → LmdbM Unit} {c : LocalClockEvent}

theorem Mild.suffix {rest : List (Option ErrorCode)} (mild : Mild full script)
    (ending : rest <:+ script) : Mild full rest :=
  ⟨fun outcome listed => mild.codes outcome (ending.subset listed), mild.grown.suffix ending⟩

theorem Mild.head (mild : Mild full script) : script.head?.join = none ∨ full ∧ ∃ rest,
    script = some .mapFull :: rest := by
  rcases script with _ | ⟨outcome, rest⟩
  · exact Or.inl rfl
  · rcases mild.codes outcome List.mem_cons_self with rfl | ⟨may, rfl⟩
    · exact Or.inl rfl
    · exact Or.inr ⟨may, rest, rfl⟩

theorem Filled.may (filled : Filled s after) (mild : Mild full s.env.script) : full := by
  rcases mild.codes _ (filled.subset List.mem_cons_self) with impossible | ⟨may, -⟩
  · cases impossible
  · exact may

theorem Filled.result (filled : Filled s after) (mild : Mild full s.env.script) :
    after.env.result = none := by
  have chain := (mild.suffix filled).grown
  unfold Env.result
  cases told : after.env.script with
  | nil => rfl
  | cons outcome rest =>
      rw [told] at chain
      rcases (List.isChain_cons_cons.mp chain).1 with impossible | calm
      · cases impossible
      · rw [calm]
        rfl

theorem at_started :
    At s s.env.committed { s with env := { s.env with writer := some s.env.committed } } :=
  ⟨rfl, ⟨rfl, rfl⟩, rfl, List.suffix_rfl⟩

theorem At.inTxn (inside : At s t file) :
    InTxn s file := ⟨by simp [inside.writer], inside.within, inside.counters⟩

theorem At.written (inside : At s t file) (done : file.env.result = none)
    (change : Tables → Tables) : At s (change t) { file with env := file.env.write change } where
  writer := by simp [Env.write, done, inside.writer]
  within := inside.within.trans (Env.within_write file.env change)
  counters := inside.counters
  script := by
    rw [Env.script_write]
    exact (List.tail_suffix _).trans inside.script

theorem At.calm (inside : At s t file) (mild : Mild False s.env.script) : file.env.result = none :=
  (mild.suffix inside.script).head.resolve_right fun impossible => impossible.1

/-! What happens in a transaction -/

/-- From the tables `t` the computation comes to a result and tables with `post`, or finds the map
full. -/
def Txn {α : Type} (full : Prop) (m : LmdbM α) (t : Tables) (post : α → Tables → Prop) : Prop :=
  ∀ s file, Mild full s.env.script → At s t file →
    Ends m file (fun value after => ∃ t', At s t' after ∧ post value t')
      fun fault after => fault = .mapFull ∧ InTxn s after ∧ Filled s after

section Rules

variable {α β γ : Type} {m : LmdbM α} {post : α → Tables → Prop} {next : α → LmdbM β}
    {last : β → Tables → Prop}

theorem txn_pure {value : α} (holds : post value t) : Txn full (pure value) t post :=
  fun _ _ _ inside => ⟨t, inside, holds⟩

theorem Txn.bind (first : Txn full m t post)
    (rest : ∀ value t', post value t' → Txn full (next value) t' last) :
    Txn full (m >>= next) t last := by
  intro s file mild inside
  rw [ends_bind]
  refine (first s file mild inside).weaken fun value after reached => ?_
  obtain ⟨t', inside', holds⟩ := reached
  exact rest value t' holds s after mild inside'

theorem Txn.andThen {check : α → LmdbM β} {next : β → LmdbM γ} {last : γ → Tables → Prop}
    {middle : β → Tables → Prop} (first : Txn full (m >>= check) t middle)
    (rest : ∀ value t', middle value t' → Txn full (next value) t' last) :
    Txn full (m >>= fun value => check value >>= next) t last := by
  rw [← bind_assoc]
  exact first.bind rest

theorem Txn.mono {post' : α → Tables → Prop} (does : Txn full m t post)
    (implies : ∀ value t', post value t' → post' value t') : Txn full m t post' := by
  intro s file mild inside
  refine (does s file mild inside).weaken fun value after reached => ?_
  obtain ⟨t', inside', holds⟩ := reached
  exact ⟨t', inside', implies value t' holds⟩

theorem txn_forM {items : List α} {body : α → LmdbM PUnit} {change : α → Tables → Tables}
    (each : ∀ item ∈ items, ∀ t, Txn full (body item) t fun _ t' => t' = change item t) :
    Txn full (items.forM body) t fun _ t' => t' = items.foldl (fun t item => change item t) t := by
  induction items generalizing t with
  | nil => exact txn_pure rfl
  | cons item rest ih =>
      rw [List.forM_eq_forM, List.forM_cons]
      refine (each item List.mem_cons_self t).bind fun _ t' changed => ?_
      rw [List.foldl_cons, ← changed]
      exact ih fun other listed => each other (List.mem_cons_of_mem _ listed)

end Rules

theorem call_txn (what : String) (change : Tables → Tables) :
    Txn full (call change >>= checkWrite what) t fun _ t' => t' = change t := by
  intro s file mild inside
  rw [ends_bind, call_ends]
  rcases (mild.suffix inside.script).head with done | ⟨-, rest, told⟩
  · have result : file.env.result = none := done
    rw [result]
    exact ⟨_, inside.written result change, rfl⟩
  · have result : file.env.result = some .mapFull := by rw [Env.result, told]; rfl
    rw [result]
    refine ⟨rfl, inside.inTxn.write change, ?_⟩
    rw [Filled, Env.script_write, told]
    exact told ▸ inside.script

theorem call_calm (change : Tables → Tables) (passes : check none = pure ()) :
    Txn False (call change >>= check) t fun _ t' => t' = change t := by
  intro s file mild inside
  have result := inside.calm mild
  rw [ends_bind, call_ends, result, passes]
  exact ⟨_, inside.written result change, rfl⟩

theorem put_txn (what : String) (db : Db) {key : Bytes} (value : Bytes)
    (valid : LmdbStore.ValidKey key) :
    Txn full (mdbPut db key value >>= checkWrite what) t fun _ t' => t' = t.put db key value := by
  rw [mdbPut, if_pos valid]
  exact call_txn what _

theorem putReferencing_txn (what : String) {key : Bytes} (value : Bytes)
    (valid : LmdbStore.ValidKey key) :
    Txn full (mdbPutReferencing key value >>= checkWrite what) t fun _ t' =>
    t' = t.putReferencing key value := by
  rw [mdbPutReferencing, if_pos valid]
  exact call_txn what _

theorem get_txn (db : Db) {key : Bytes} (nonempty : key ≠ []) :
    Txn full (mdbGet db key) t fun found t' =>
      t' = t ∧ found = (match (t.plain db)[key]? with
        | some value => .ok value
        | none => .error .notFound) := by
  intro s file mild inside
  have seen : file.working = t := by rw [working, inside.writer, Option.getD_some]
  rw [mdbGet, if_neg nonempty, ends_bind, ends_get, seen]
  cases (t.plain db)[key]? <;> exact ⟨t, inside, rfl, rfl⟩

theorem delete_txn {key : Bytes} {found : Tables → Bool} (change : Tables → Tables)
    (nonempty : key ≠ []) (passes : check (orNotFound (found t) none) = pure ()) :
    Txn False (mdbDelete key found change >>= check) t fun _ t' => t' = change t := by
  intro s file mild inside
  have seen : file.working = t := by rw [working, inside.writer, Option.getD_some]
  have result := inside.calm mild
  simp only [mdbDelete, if_neg nonempty, ends_bind, ends_get, call_ends, ends_pure,
    seen, result, passes]
  exact ⟨_, inside.written result change, rfl⟩

/-! Commits -/

structure Settled (s : LmdbFile) (t : Tables) (after : LmdbFile) : Prop where
  idle : after.env.writer = none
  committed : after.env.committed = t
  counters : after.counters = s.counters

theorem At.committed (inside : At s t file) (done : file.env.result = none) :
    Settled s t { file with env := file.env.commit } where
  idle := Env.writer_commit file.env
  committed := by simp [Env.commit, done, inside.writer]
  counters := inside.counters

theorem Txn.calm {α : Type} {m : LmdbM α} {post : α → Tables → Prop} (does : Txn False m t post)
    (mild : Mild False s.env.script) (inside : At s t file) : Returns m file fun value after =>
    ∃ t', At s t' after ∧ post value t' :=
  (does s file mild inside).mono (fun _ _ reached => reached) fun _ _ stopped =>
    stopped.2.2.may mild

theorem At.commits {thrown : LmdbFault → LmdbFile → Prop} (inside : At s t file)
    (mild : Mild False s.env.script) (passes : check none = pure ()) :
    Ends (txnCommit >>= check) file (fun _ => Settled s t) thrown := by
  have done := inside.calm mild
  simp only [txnCommit, ends_bind, ends_get, ends_set, ends_pure, done, passes]
  exact inside.committed done

def Noted (s : LmdbFile) (b : Batch) (t : Tables) (after : LmdbFile) : Prop :=
  ∃ settled, Settled s t settled ∧
    after = b.pendingChainAppends.foldl noteAppend
    { settled with nextEventSeq := b.eventSeq, nextClockSeq := b.clockSeq }

theorem At.commitBatch (inside : At s t file) (mild : Mild full s.env.script) (b : Batch) :
    Ends b.commit file (fun _ => Noted s b t) fun fault after => fault = .mapFull ∧
    Unharmed s after ∧ Filled s after := by
  simp only [Batch.commit, txnCommit, ends_bind, ends_get, ends_set, ends_pure]
  rcases (mild.suffix inside.script).head with done | ⟨-, rest, told⟩
  · have result : file.env.result = none := done
    rw [result]
    exact ⟨_, inside.committed result, rfl⟩
  · have result : file.env.result = some .mapFull := by rw [Env.result, told]; rfl
    rw [result]
    refine ⟨rfl, inside.inTxn.commit_failed result, ?_⟩
    have spent : file.env.commit.script = rest := by simp [Env.commit, result, Env.called, told]
    rw [Filled, spent]
    exact told ▸ inside.script

variable {α : Type} {op : Batch → LmdbM (α × Batch)} {begun : Batch}
    {post : α × Batch → Tables → Prop} {build : Build}

theorem attempt_ends (idle : s.env.writer = none) (mild : Mild full s.env.script)
    (counted : (⟨s.nextEventSeq, s.nextClockSeq, []⟩ : Batch) = begun)
    (does : Txn full (op begun) s.env.committed post) :
    Ends (attempt op) s (fun value after => ∃ b t, post (value, b) t ∧ Noted s b t after)
      fun fault after => fault = .mapFull ∧ Unharmed s after ∧ Filled s after := by
  simp only [attempt, ends_bind, txnBegin_ends idle, ends_get, ends_tryCatch, ends_throw,
    ends_pure, counted]
  refine (does s _ mild at_started).mono (fun result file reached => ?_) fun fault file stopped =>
    ?_
  · obtain ⟨t, inside, holds⟩ := reached
    refine (inside.commitBatch mild result.2).mono
      (fun _ after noted => ⟨result.2, t, holds, noted⟩) fun fault after stopped => ?_
    obtain ⟨same, unharmed, filled⟩ := stopped
    rw [ends_when, unharmed.closed]
    exact ⟨by simp, fun _ => ⟨same, unharmed, filled⟩⟩
  · obtain ⟨same, inside, filled⟩ := stopped
    simp only [ends_when, txnAbort, ends_modify, inside.started, forall_true_left,
      not_true_eq_false, false_implies, and_true]
    refine ⟨same, inside.abort, ?_⟩
    obtain ⟨tables, opened⟩ := Option.isSome_iff_exists.mp inside.started
    have kept : file.env.abort.script = file.env.script := by simp [Env.abort, opened]
    rw [Filled, kept]
    exact filled

def storeFull : LmdbFault :=
  .fault (.exception "lmdb: store full (32-bit address-space limit reached)")

theorem Filled.grow (filled : Filled s file) (unharmed : Unharmed s file)
    (mild : Mild full s.env.script) : Ends (growMap build) file (fun _ after => Unharmed s after ∧
      after.env.script = file.env.script.tail) fun fault after => fault = storeFull ∧
      build.maxMapSize ≠ 0 ∧ Unharmed s after := by
  simp only [growMap, ends_bind, ends_get]
  split
  · rename_i limit
    exact ⟨rfl, limit.1, unharmed⟩
  · simp only [ends_set, call_ends, ends_bind]
    have result : file.env.result = none := filled.result mild
    rw [result]
    refine ⟨⟨?_, unharmed.within.trans (Env.within_write file.env id), unharmed.counters⟩,
      Env.script_write file.env id⟩
    simp [Env.write, result, unharmed.closed]

theorem durableIn_ends (rounds : Nat) (enough : s.env.script.length < rounds)
    (idle : s.env.writer = none) (mild : Mild full s.env.script)
    (counted : (⟨s.nextEventSeq, s.nextClockSeq, []⟩ : Batch) = begun)
    (does : Txn full (op begun) s.env.committed post) :
    Ends (durableIn build op rounds) s (fun value after => ∃ b t, post (value, b) t ∧
      Noted s b t after) fun fault after => fault = storeFull ∧ build.maxMapSize ≠ 0 ∧
      Unharmed s after := by
  induction rounds generalizing s with
  | zero => omega
  | succ rounds ih =>
      rw [durableIn, ends_tryCatch]
      refine (attempt_ends idle mild counted does).mono
        (fun _ _ done => done) fun fault file stopped => ?_
      obtain ⟨rfl, unharmed, filled⟩ := stopped
      rw [ends_bind]
      refine (filled.grow unharmed mild).weaken fun _ grown reached => ?_
      obtain ⟨kept, told⟩ := reached
      -- the next attempt starts from the same counters and data, with a shorter script
      have ending : grown.env.script <:+ s.env.script := by
        rw [told]
        exact ((List.tail_suffix _).trans (List.suffix_cons _ _)).trans filled
      have shorter : grown.env.script.length < rounds := by
        have whole := filled.length_le
        rw [told, List.length_tail]
        rw [List.length_cons] at whole
        omega
      have same := kept.counters
      simp only [LmdbFile.counters, Prod.mk.injEq] at same
      have next := ih shorter kept.closed (mild.suffix ending) (by rw [same.1, same.2.1, counted])
        (by rwa [kept.within.committed])
      refine next.mono (fun value after done => ?_) fun _ _ limit =>
        ⟨limit.1, limit.2.1, kept.trans limit.2.2⟩
      obtain ⟨b, t, holds, settled, ends, rfl⟩ := done
      exact ⟨b, t, holds, settled, ⟨ends.idle, ends.committed, ends.counters.trans kept.counters⟩,
        rfl⟩

def Limited (build : Build) (s : LmdbFile) (fault : LmdbFault) (after : LmdbFile) : Prop :=
  fault = storeFull ∧ build.maxMapSize ≠ 0 ∧ Unharmed s after

theorem durable_ends (idle : s.env.writer = none) (mild : Mild full s.env.script)
    (does : Txn full (op ⟨s.nextEventSeq, s.nextClockSeq, []⟩) s.env.committed post) :
    Ends (durable build op) s (fun value after => ∃ b t, post (value, b) t ∧ Noted s b t after)
      (Limited build s) :=
  durableIn_ends _ (Nat.lt_succ_self _) idle mild rfl does

/-! The tables -/

section Tables

variable {l l' : LmdbStore} {seq : Nat} {hash : EventHash} {referencing later : ReverseIndex}
  {dups : List Nat}

theorem validKey_be64 (seq : Nat) : LmdbStore.ValidKey (be64 seq) := by
  rw [LmdbStore.ValidKey, be64_length]
  decide

theorem isLE_be64 {first second : Nat} (one : Numbered first) (two : Numbered second) :
    (compare (be64 first) (be64 second)).isLE = true ↔ first ≤ second := by
  rw [be64_ordered first second one two, Nat.isLE_compare]

theorem mem_map_be64 (numbered : Numbered seq) (all : ∀ other ∈ dups, Numbered other) :
    be64 seq ∈ dups.map be64 ↔ seq ∈ dups := by
  rw [List.mem_map]
  constructor
  · rintro ⟨other, listed, same⟩
    exact be64_inj (all other listed) numbered same ▸ listed
  · exact fun listed => ⟨seq, listed, rfl⟩

theorem insertDup_be64 (numbered : Numbered seq) (all : ∀ other ∈ dups, Numbered other) :
    Tables.insertDup (be64 seq) (dups.map be64) = (LmdbStore.insertDup seq dups).map be64 := by
  simp only [Tables.insertDup, LmdbStore.insertDup, mem_map_be64 numbered all]
  split
  · rfl
  · rw [List.map_orderedInsert _ (fun a b : Bytes => (compare a b).isLE)]
    · exact fun other listed => (isLE_be64 (all other listed) numbered).symm
    · exact fun other listed => (isLE_be64 numbered (all other listed)).symm

theorem filter_be64 (numbered : Numbered seq) (all : ∀ other ∈ dups, Numbered other) :
    (dups.map be64).filter (· ≠ be64 seq) = (dups.filter (· ≠ seq)).map be64 := by
  rw [List.filter_map]
  refine congrArg (List.map be64) (List.filter_congr fun other listed => ?_)
  have same : be64 other = be64 seq ↔ other = seq :=
    ⟨be64_inj (all other listed) numbered, congrArg be64⟩
  simp [same]

theorem Lists.replace {table : ExtTreeMap Bytes (List Bytes)}
    (lists : Lists t.referencing referencing) (all : ∀ seq ∈ dups, Numbered seq)
    (changed : ∀ other : EventHash,
      table.getD other [] = if hash = other then dups.map be64 else t.referencing.getD other []) :
    Lists table (referencing.insert hash dups) := by
  constructor <;> intro other <;> rw [ExtTreeMap.getD_insert] <;> by_cases here : hash = other
  · rw [changed, if_pos here, if_pos (LawfulEqCmp.compare_eq_iff_eq.mpr here)]
  · rw [changed, if_neg here, if_neg fun same => here (LawfulEqCmp.compare_eq_iff_eq.mp same),
      lists.listed]
  · rw [if_pos (LawfulEqCmp.compare_eq_iff_eq.mpr here)]
    exact all
  · rw [if_neg fun same => here (LawfulEqCmp.compare_eq_iff_eq.mp same)]
    exact lists.numbered other

theorem Lists.put (lists : Lists t.referencing referencing) (numbered : Numbered seq) :
    Lists (t.putReferencing hash (be64 seq)).referencing
      (referencing.insert hash (LmdbStore.insertDup seq (referencing.getD hash []))) := by
  refine lists.replace (fun other listed => ?_) fun other => ?_
  · rcases (LmdbStore.mem_insertDup_iff seq other _).mp listed with old | rfl
    · exact lists.numbered hash other old
    · exact numbered
  · rw [Tables.putReferencing, ExtTreeMap.getD_insert, lists.listed hash, insertDup_be64 numbered
      (lists.numbered hash)]
    simp only [LawfulEqCmp.compare_eq_iff_eq]

theorem Lists.delete (lists : Lists t.referencing referencing) (numbered : Numbered seq) :
    Lists (t.delReferencing hash (be64 seq)).referencing
      (referencing.insert hash ((referencing.getD hash []).filter (· ≠ seq))) := by
  refine lists.replace
    (fun other listed => lists.numbered hash other (List.mem_of_mem_filter listed)) fun other => ?_
  rw [Tables.delReferencing, lists.listed hash, filter_be64 numbered (lists.numbered hash)]
  dsimp only
  split
  · rename_i gone
    rw [ExtTreeMap.getD_erase, gone]
    simp only [LawfulEqCmp.compare_eq_iff_eq]
  · rw [ExtTreeMap.getD_insert]
    simp only [LawfulEqCmp.compare_eq_iff_eq]

end Tables

/-! Batches -/

section Batches

variable {l l' : LmdbStore} {number : Nat} {referencing later : ReverseIndex}

theorem appendEvent_txn {e : Event} (valid : LmdbStore.ValidKey e.hash) (b : Batch) :
    Txn full (Batch.appendEvent e b) t fun result t' =>
      result = (b.eventSeq, { b with eventSeq := b.eventSeq + 1 }) ∧
      t' = (t.put .events (be64 b.eventSeq) (Wire.Writer.event e)).put .eventIndex e.hash
      (be64 b.eventSeq) := by
  refine (put_txn _ _ _ (validKey_be64 _)).andThen fun _ t₁ stored => ?_
  refine (put_txn _ _ _ valid).andThen fun _ t₂ indexed => txn_pure ⟨rfl, ?_⟩
  rw [indexed, stored]

theorem Lists.putAll {seq : Nat} {refs : List EventReference}
    (lists : Lists t.referencing referencing) (numbered : Numbered seq)
    (written : refs.foldlM (LmdbStore.putReferencing seq) referencing = .ok later) :
    (refs.foldl (fun t ref => t.putReferencing ref.hash (be64 seq)) t).plain = t.plain ∧
      Lists (refs.foldl (fun t ref => t.putReferencing ref.hash (be64 seq)) t).referencing
      later := by
  induction refs generalizing t referencing with
  | nil =>
      cases written
      exact ⟨rfl, lists⟩
  | cons ref rest ih =>
      rw [List.foldlM_cons] at written
      obtain ⟨next, put, written⟩ := except_bind_ok_iff.mp written
      obtain ⟨_, -, same⟩ := except_bind_ok_iff.mp put
      cases same
      exact ih (lists.put numbered) written

theorem appendClockEvent_txn (b : Batch)
    (valid : LmdbStore.ValidKey c.hash) (numbered : Numbered b.clockSeq)
    (lists : Lists t.referencing referencing)
    (written : c.referencedEvents.foldlM
      (LmdbStore.putReferencing b.clockSeq) referencing = .ok later) :
    Txn full (Batch.appendClockEvent c b) t fun result t' =>
      result = (b.clockSeq, { b with clockSeq := b.clockSeq + 1, pendingChainAppends :=
        b.pendingChainAppends ++ [(c.chain, b.clockSeq)] }) ∧
        t'.plain = ((t.put .clockEvents (be64 b.clockSeq) (writeLocalClockEvent c)).put .clockIndex
          c.hash (be64 b.clockSeq)).plain ∧
        Lists t'.referencing later := by
  refine (put_txn _ _ _ (validKey_be64 _)).andThen fun _ t₁ stored => ?_
  refine (put_txn _ _ _ valid).andThen fun _ t₂ indexed => ?_
  have valids := (LmdbStore.putReferencing_ok_iff b.clockSeq c.referencedEvents referencing).mp
    ⟨later, written⟩
  refine Txn.bind (txn_forM fun ref listed t => putReferencing_txn _ _ (valids ref listed)) fun _ t₃
    put => txn_pure ⟨rfl, ?_⟩
  have unchanged : Lists t₂.referencing referencing := by
    rw [indexed, stored]
    exact lists
  obtain ⟨plain, lists⟩ := unchanged.putAll numbered written
  rw [put]
  exact ⟨by rw [plain, indexed, stored], lists⟩

theorem updateClockEvent_txn {seq : Nat} (b : Batch) (nonempty : c.hash ≠ [])
    (entry : (t.plain .clockIndex)[c.hash]? = some (be64 seq)) :
    Txn full (Batch.updateClockEvent c b) t fun result t' =>
      result = ((), b) ∧ t' = t.put .clockEvents (be64 seq) (writeLocalClockEvent c) := by
  refine (get_txn .clockIndex nonempty).bind ?_
  rintro _ t₁ ⟨rfl, rfl⟩
  rw [entry]
  have whole : (be64 seq).take 8 = be64 seq := List.take_of_length_le
    (Nat.le_of_eq (be64_length seq))
  dsimp only
  rw [whole]
  exact (put_txn _ _ _ (validKey_be64 seq)).andThen fun _ t₂ stored => txn_pure ⟨rfl, stored⟩

theorem putNode_txn (what : String) (db : Db) (id : NodeId) (value : Bytes) (b : Batch) :
    Txn full (do checkWrite what (← mdbPut db id.bytes value); return ((), b)) t fun result t' =>
      result = ((), b) ∧ t' = t.put db id.bytes value :=
  (put_txn _ _ _ (validKey_nodeId id)).andThen fun _ _ stored => txn_pure ⟨rfl, stored⟩

/-! Deletes -/

theorem Lists.deleteAll {seq : Nat} {refs : List EventReference}
    (lists : Lists t.referencing referencing) (numbered : Numbered seq)
    (deleted : refs.foldlM (LmdbStore.deleteReferencing seq) referencing = .ok later) :
    (refs.foldl (fun t ref => t.delReferencing ref.hash (be64 seq)) t).plain = t.plain ∧
      Lists (refs.foldl (fun t ref => t.delReferencing ref.hash (be64 seq)) t).referencing
      later := by
  induction refs generalizing t referencing with
  | nil =>
      cases deleted
      exact ⟨rfl, lists⟩
  | cons ref rest ih =>
      rw [List.foldlM_cons] at deleted
      obtain ⟨next, gone, deleted⟩ := except_bind_ok_iff.mp deleted
      obtain ⟨_, -, same⟩ := except_bind_ok_iff.mp gone
      cases same
      exact ih (lists.delete numbered) deleted

theorem dropClockEvent_txn {seq : Nat} (encodes : Encodes t l) (log : l.LogWithin (fitting build))
    (numbered : Numbered seq) (dropped : l.dropClockEvent seq = .ok l') :
    Txn False (dropClockEvent build seq) t fun _ t' => Encodes t' l' := by
  unfold LmdbStore.dropClockEvent at dropped
  refine (get_txn .clockEvents (be64_ne_nil seq)).bind ?_
  rintro _ t₁ ⟨rfl, rfl⟩
  rw [encodes.clockEvents.lookup seq numbered]
  cases found : l.clockEvents[seq]? with
  | none =>
      rw [found] at dropped
      cases dropped
      exact txn_pure encodes
  | some c =>
      rw [found] at dropped
      obtain ⟨referencing, deleted, rest⟩ := except_bind_ok_iff.mp dropped
      obtain ⟨_, -, same⟩ := except_bind_ok_iff.mp rest
      cases same
      obtain ⟨fits, hashed, nonempty⟩ := (log.live seq c found).1
      simp only [Option.map_some, fits.readsFront, StateExcept.ofExcept, pure_bind]
      refine Txn.bind (txn_forM fun ref listed t => delete_txn _ (nonempty ref listed) ?_) fun _
        t₂ unlisted => ?_
      · exact checkDelete_accepted List.mem_cons_self
      obtain ⟨plain, lists⟩ := encodes.referencing.deleteAll numbered deleted
      rw [← unlisted] at plain lists
      refine (delete_txn _ hashed (checkDelete_accepted List.mem_cons_self)).andThen
        fun _ t₃ unindexed => ?_
      -- the record is still there, so the last delete finds it
      have held : be64 seq ∈ t₃.plain .clockEvents := by
        have stored : (t₁.plain .clockEvents)[be64 seq]? = some (writeLocalClockEvent c) := by
          rw [encodes.clockEvents.lookup seq numbered, found, Option.map_some]
        rw [unindexed, Tables.del, plain]
        exact mem_of_getElem? stored
      refine (delete_txn _ (be64_ne_nil seq) ?_).mono fun _ t₄ erased => ?_
      · rw [decide_eq_true held]
        rfl
      · rw [erased, unindexed, Tables.del, Tables.del, plain]
        exact { encodes with
          clockEvents := encodes.clockEvents.erase be64_ordered numbered
          clockIndex := encodes.clockIndex.erase hash_ordered trivial
          referencing := lists }

theorem dropClockEvents_txn (seqs : List Nat) (encodes : Encodes t l)
    (log : l.LogWithin (fitting build)) (numbered : ∀ seq ∈ seqs, Numbered seq)
    (dropped : seqs.foldlM LmdbStore.dropClockEvent l = .ok l') :
    Txn False (seqs.forM (dropClockEvent build)) t fun _ t' => Encodes t' l' := by
  induction seqs generalizing t l with
  | nil =>
      cases dropped
      exact txn_pure encodes
  | cons seq rest ih =>
      rw [List.foldlM_cons] at dropped
      obtain ⟨middle, first, others⟩ := except_bind_ok_iff.mp dropped
      rw [List.forM_eq_forM, List.forM_cons]
      refine (dropClockEvent_txn encodes log (numbered seq List.mem_cons_self) first).bind fun _
        t' encodes' => ?_
      exact ih encodes' (LmdbStore.dropClockEvent_dropped log first).2
        (fun other listed => numbered other (List.mem_cons_of_mem _ listed)) others

end Batches

/-! The writes of the port -/

section Writes

variable {l l' : LmdbStore} {number : Nat}

theorem foldl_noteAppend_env (entries : List (UInt32 × Nat)) (file : LmdbFile) :
    (entries.foldl noteAppend file).env = file.env := by
  induction entries generalizing file with
  | nil => rfl
  | cons entry rest ih => exact ih (noteAppend file entry)

def Batch.Counts (b : Batch) (l l' : LmdbStore) : Prop :=
  ∀ file : LmdbFile, file.counters = (l.nextEventSeq, l.nextClockSeq, l.chainTipSeq, l.chainSeqs) →
    (b.pendingChainAppends.foldl noteAppend { file with nextEventSeq := b.eventSeq, nextClockSeq :=
      b.clockSeq }).counters = (l'.nextEventSeq, l'.nextClockSeq, l'.chainTipSeq, l'.chainSeqs)

section

variable (refines : Refines s l) (mild : Mild full s.env.script)

include refines mild

theorem Refines.durably {result : α}
    (does : Txn full (op ⟨l.nextEventSeq, l.nextClockSeq, []⟩) s.env.committed fun out t =>
      out.1 = result ∧ Encodes t l' ∧ out.2.Counts l l') :
    Ends (durable build op) s (fun value after => value = result ∧ Refines after l')
      (Limited build s) := by
  have counters := refines.counters
  simp only [LmdbFile.counters, Prod.mk.injEq] at counters
  refine (durable_ends refines.idle mild (by rwa [counters.1, counters.2.1])).weaken fun value
    after done => ?_
  obtain ⟨b, t, ⟨same, encodes, counts⟩, file, settled, rfl⟩ := done
  refine ⟨same, ?_, ?_, counts file (settled.counters.trans refines.counters)⟩
  · rw [foldl_noteAppend_env]
    exact settled.idle
  · rw [foldl_noteAppend_env]
    exact settled.committed.symm ▸ encodes

theorem Refines.durablePut {op : Batch → LmdbM (Unit × Batch)}
    (does : ∀ b, Txn full (op b) s.env.committed fun out t' => out = ((), b) ∧ t' = t)
    (encodes : Encodes t l')
    (counters : (l'.nextEventSeq, l'.nextClockSeq, l'.chainTipSeq, l'.chainSeqs) =
      (l.nextEventSeq, l.nextClockSeq, l.chainTipSeq, l.chainSeqs)) :
    Ends (durable build op) s (fun _ after => Refines after l') (Limited build s) := by
  have counted : Txn full (op ⟨l.nextEventSeq, l.nextClockSeq, []⟩) s.env.committed fun out t =>
      out.1 = () ∧ Encodes t l' ∧ out.2.Counts l l' := by
    refine (does _).mono ?_
    rintro _ _ ⟨rfl, rfl⟩
    refine ⟨rfl, encodes, fun file same => ?_⟩
    rw [counters, ← same]
    simp only [LmdbFile.counters, Prod.mk.injEq] at same
    simp only [LmdbFile.counters, List.foldl_nil, same.1, same.2.1]
  exact (refines.durably mild counted).weaken fun _ _ done => done.2

theorem Refines.appendEvent {e : Event} (numbered : Numbered l.nextEventSeq)
    (appended : l.appendEvent e = .ok (number, l')) :
    Ends (appendEvent build e) s (fun value after => value = number ∧ Refines after l')
    (Limited build s) := by
  obtain ⟨_, checked, same⟩ := except_bind_ok_iff.mp appended
  cases same
  refine refines.durably mild ((appendEvent_txn (LmdbStore.checkPut_ok_iff.mp checked) _).mono ?_)
  rintro _ _ ⟨rfl, rfl⟩
  refine ⟨rfl, { refines.encodes with
    events := refines.encodes.events.insert be64_ordered numbered
    eventIndex := refines.encodes.eventIndex.insert hash_ordered trivial }, fun file counters => ?_⟩
  simp only [LmdbFile.counters, Prod.mk.injEq] at counters
  simp only [LmdbFile.counters, List.foldl_nil, counters.2.2.1, counters.2.2.2]

theorem Refines.appendClockEvent (numbered : Numbered l.nextClockSeq)
    (appended : l.appendClockEvent c = .ok (number, l')) :
    Ends (appendClockEvent build c) s (fun value after => value = number ∧ Refines after l')
    (Limited build s) := by
  obtain ⟨_, checked, written⟩ := except_bind_ok_iff.mp appended
  obtain ⟨referencing, put, same⟩ := except_bind_ok_iff.mp written
  cases same
  refine refines.durably mild
    ((appendClockEvent_txn _ (LmdbStore.checkPut_ok_iff.mp checked) numbered
    refines.encodes.referencing put).mono ?_)
  rintro _ t ⟨rfl, plain, lists⟩
  refine ⟨rfl, ?_, fun file counters => ?_⟩
  · have encodes :
        Encodes { t with plain :=
          ((s.env.committed.put .clockEvents (be64 l.nextClockSeq) (writeLocalClockEvent c)).put
        .clockIndex c.hash (be64 l.nextClockSeq)).plain } { l with
          clockEvents := l.clockEvents.insert l.nextClockSeq c, clockIndex :=
            l.clockIndex.insert c.hash l.nextClockSeq, referencing } :=
      { refines.encodes with
        clockEvents := refines.encodes.clockEvents.insert be64_ordered numbered
        clockIndex := refines.encodes.clockIndex.insert hash_ordered trivial
        referencing := lists }
    rw [← plain] at encodes
    exact { encodes with }
  · simp only [LmdbFile.counters, Prod.mk.injEq] at counters
    simp only [LmdbFile.counters, List.nil_append, List.foldl_cons, List.foldl_nil, noteAppend,
      counters.2.2.1, counters.2.2.2]

theorem Refines.updateClockEvent (sound : l.Sound)
    (updated : l.updateClockEvent c = .ok l') :
    Ends (updateClockEvent build c) s (fun _ after => Refines after l') (Limited build s) := by
  obtain ⟨_, checked, written⟩ := except_bind_ok_iff.mp updated
  cases entry : l.clockIndex[c.hash]? with
  | none =>
      rw [entry] at written
      cases written
  | some seq =>
      rw [entry] at written
      cases written
      have indexed : (s.env.committed.plain .clockIndex)[c.hash]? = some (be64 seq) := by
        have stored := refines.encodes.clockIndex.lookup c.hash trivial
        rwa [entry] at stored
      obtain ⟨old, found, -⟩ := (sound.logs.indexed _ _).mp entry
      have numbered := refines.encodes.clockEvents.fitting seq (mem_of_getElem? found)
      exact refines.durablePut mild
        (fun b => updateClockEvent_txn b (LmdbStore.checkGet_ok_iff.mp checked) indexed)
        { refines.encodes with clockEvents :=
          refines.encodes.clockEvents.insert be64_ordered numbered } rfl

theorem Refines.putNeighbor (n : Neighbor) :
    Ends (putNeighbor build n) s
      (fun _ after =>
        Refines after { l with neighbors := l.neighbors.insert n.nodeId n.lastClockEventHashes })
          (Limited build s) :=
  refines.durablePut mild (fun b => putNode_txn _ _ _ _ b)
    { refines.encodes with neighbors :=
      refines.encodes.neighbors.insert nodeId_ordered trivial } rfl

theorem Refines.putRoute (destination nextHop : NodeId) :
    Ends (putRoute build destination nextHop) s
      (fun _ after => Refines after { l with routes := l.routes.insert destination nextHop })
      (Limited build s) :=
  refines.durablePut mild (fun b => putNode_txn _ _ _ _ b)
    { refines.encodes with routes := refines.encodes.routes.insert nodeId_ordered trivial } rfl

end

/-! The writes without a retry -/

theorem denotes_foldl_put {entries : List (NodeId × List TimedRoute)} {table : TimedRouteTable}
    (denotes : Denotes NodeId.bytes timedRoutesValue (fun _ => True) (t.plain .timedRoutes) table) :
    Denotes NodeId.bytes timedRoutesValue (fun _ => True)
      ((entries.foldl (fun t entry => t.put .timedRoutes entry.1.bytes (timedRoutesValue entry.2))
        t).plain .timedRoutes)
      (entries.foldl (fun table entry => table.insert entry.1 entry.2) table) := by
  induction entries generalizing t table with
  | nil => exact denotes
  | cons entry rest ih =>
      exact ih (denotes.insert nodeId_ordered trivial)

theorem foldl_put_other (entries : List (NodeId × List TimedRoute)) :
    (∀ db, db ≠ .timedRoutes →
      (entries.foldl (fun t entry => t.put .timedRoutes entry.1.bytes (timedRoutesValue entry.2))
        t).plain db = t.plain db) ∧
      (entries.foldl (fun t entry => t.put .timedRoutes entry.1.bytes (timedRoutesValue entry.2))
        t).referencing = t.referencing := by
  induction entries generalizing t with
  | nil => exact ⟨fun _ _ => rfl, rfl⟩
  | cons entry rest ih =>
      obtain ⟨plain, referencing⟩ :=
        @ih (t.put .timedRoutes entry.1.bytes (timedRoutesValue entry.2))
      refine ⟨fun db other => (plain db other).trans ?_, referencing⟩
      simp [Tables.put, other]

theorem Encodes.withTimedRoutes {table : TimedRouteTable} (encodes : Encodes t l)
    (others : (∀ db, db ≠ .timedRoutes → t'.plain db = t.plain db) ∧ t'.referencing = t.referencing)
    (denotes : Denotes NodeId.bytes timedRoutesValue (fun _ => True)
      (t'.plain .timedRoutes) table) :
    Encodes t' { l with timedRoutes := table } := by
  obtain ⟨plain, referencing⟩ := others
  constructor
  · exact plain .events (by decide) ▸ encodes.events
  · exact plain .eventIndex (by decide) ▸ encodes.eventIndex
  · exact plain .clockEvents (by decide) ▸ encodes.clockEvents
  · exact plain .clockIndex (by decide) ▸ encodes.clockIndex
  · exact referencing ▸ encodes.referencing
  · exact plain .neighbors (by decide) ▸ encodes.neighbors
  · exact plain .routes (by decide) ▸ encodes.routes
  · exact denotes

theorem Refines.putTimedRoutes (refines : Refines s l) (mild : Mild False s.env.script)
    (table : TimedRouteTable) : Returns (putTimedRoutes table) s fun _ after =>
    Refines after { l with timedRoutes := table } := by
  have dropped := (at_started (s := s)).written (at_started.calm mild) fun t => t.drop .timedRoutes
  have puts : Txn False (table.toList.forM LmdbFile.putTimedRoute)
      (s.env.committed.drop .timedRoutes) fun _ t' => t' =
      table.toList.foldl (fun t entry => t.put .timedRoutes entry.1.bytes
        (timedRoutesValue entry.2)) (s.env.committed.drop .timedRoutes) :=
    txn_forM fun entry _ t => put_txn _ _ _ (validKey_nodeId entry.1)
  simp only [LmdbFile.putTimedRoutes, ends_bind, txnBegin_ends refines.idle, mdbDrop, call_ends]
  refine (puts.calm mild dropped).weaken fun _ file reached => ?_
  obtain ⟨t', inside, rfl⟩ := reached
  rw [← ends_bind]
  refine (inside.commits mild rfl).weaken fun _ after settled => ?_
  refine ⟨settled.idle, settled.committed.symm ▸ ?_, settled.counters.trans refines.counters⟩
  have denotes : Denotes NodeId.bytes timedRoutesValue (fun _ => True) _
    (table.toList.foldl (fun table entry => table.insert entry.1 entry.2) ∅) :=
    denotes_foldl_put (t := s.env.committed.drop .timedRoutes) denotes_empty
  rw [foldl_insert_toList] at denotes
  have dropped : Encodes (s.env.committed.drop .timedRoutes) { l with timedRoutes := ∅ } :=
    { refines.encodes with timedRoutes := denotes_empty }
  exact dropped.withTimedRoutes (foldl_put_other table.toList) denotes

theorem Refines.pruneChain {chain : UInt32} {keep : Nat} (refines : Refines s l)
    (mild : Mild False s.env.script) (sound : l.Sound) (within : l.Within (fitting build))
    (pruned : l.pruneChain chain keep = .ok l') :
    Returns (pruneChain build chain keep) s fun _ after => Refines after l' := by
  have same := refines.counters
  simp only [LmdbFile.counters, Prod.mk.injEq] at same
  unfold LmdbStore.pruneChain at pruned
  unfold LmdbFile.pruneChain
  rw [Returns, ends_bind, ends_get, same.2.2.2]
  cases place : l.chainSeqs[chain]? with
  | none =>
      rw [place] at pruned
      cases pruned
      exact refines
  | some seqs =>
      rw [place] at pruned
      by_cases few : keep = 0 ∨ seqs.length ≤ keep
      · simp only [few, if_true] at pruned ⊢
        cases pruned
        exact refines
      · simp only [few, if_false] at pruned ⊢
        obtain ⟨middle, dropped, shorter⟩ := except_bind_ok_iff.mp pruned
        cases shorter
        have numbered : ∀ seq ∈ seqs.take (seqs.length - keep), Numbered seq := fun seq listed =>
          refines.encodes.clockEvents.fitting seq
            (within.lanes.listed chain seqs place seq (List.mem_of_mem_take listed)).1
        have drops :=
          (dropClockEvents_txn _ refines.encodes within.log numbered dropped).calm mild at_started
        simp only [ends_bind, txnBegin_ends refines.idle, ends_tryCatch]
        refine drops.always fun _ file reached => ?_
        obtain ⟨t', inside, encodes⟩ := reached
        rw [← ends_bind]
        refine (inside.commits mild rfl).mono (fun _ after settled => ?_) fun _ _
          (impossible : False) => impossible.elim
        have kept := (LmdbStore.dropClockEvents_dropped _ within.log dropped).1
        have events := (LmdbStore.dropClockEvents_drops _ sound.toLogSound dropped).nextEventSeq
        rw [ends_modify]
        refine ⟨settled.idle, ?_, ?_⟩
        · rw [settled.committed]
          exact { encodes with }
        · have counters := settled.counters.trans refines.counters
          simp only [LmdbFile.counters, Prod.mk.injEq] at counters
          simp only [LmdbFile.counters, counters.1, counters.2.1, counters.2.2.1, counters.2.2.2,
            events, kept.nextClockSeq, kept.chainTipSeq, kept.chainSeqs]

theorem Refines.reset (refines : Refines s l) (mild : Mild False s.env.script) :
    Returns reset s fun _ after => Refines after {} := by
  simp only [LmdbFile.reset, ends_bind, txnBegin_ends refines.idle]
  refine Ends.mono (Txn.calm (txn_forM fun change _ t => call_calm change rfl) mild at_started)
    (fun _ file reached => ?_) fun _ _ impossible => impossible
  obtain ⟨t', inside, rfl⟩ := reached
  rw [← ends_bind]
  refine (inside.commits mild rfl).weaken fun _ after settled => ?_
  rw [ends_modify]
  refine ⟨settled.idle, settled.committed.symm ▸ ?_, rfl⟩
  constructor <;> first | exact denotes_empty | exact ⟨by simp [resetDrops, Tables.drop,
    Tables.dropReferencing], by simp⟩

def Retried : StoreWrite → Prop
  | .putTimedRoutes _ | .pruneChain _ _ | .clear => False
  | _ => True

theorem Refines.perform {write : StoreWrite} {given : Option Nat} (refines : Refines s l)
    (mild : Mild (Retried write) s.env.script) (sound : l.Sound) (within : l.Within (fitting build))
    (numbered : Numbered l.nextEventSeq ∧ Numbered l.nextClockSeq)
    (performed : write.perform l = .ok (given, l')) :
    Ends (perform build write) s (fun value after => value = given ∧ Refines after l')
    (Limited build s) := by
  cases write with
  | appendEvent e =>
      obtain ⟨⟨number, after⟩, appended, same⟩ := except_bind_ok_iff.mp performed
      cases same
      rw [LmdbFile.perform, ends_map]
      exact (refines.appendEvent mild numbered.1 appended).weaken fun _ _ done =>
        ⟨congrArg some done.1, done.2⟩
  | appendClockEvent c =>
      obtain ⟨⟨number, after⟩, appended, same⟩ := except_bind_ok_iff.mp performed
      cases same
      rw [LmdbFile.perform, ends_map]
      exact (refines.appendClockEvent mild numbered.2 appended).weaken fun _ _ done =>
        ⟨congrArg some done.1, done.2⟩
  | updateClockEvent c =>
      obtain ⟨after, updated, same⟩ := except_bind_ok_iff.mp performed
      cases same
      rw [LmdbFile.perform, ends_bind]
      exact (refines.updateClockEvent mild sound updated).weaken fun _ _ done => ⟨rfl, done⟩
  | putNeighbor n =>
      cases performed
      rw [LmdbFile.perform, ends_bind]
      exact (refines.putNeighbor mild n).weaken fun _ _ done => ⟨rfl, done⟩
  | putRoute destination nextHop =>
      cases performed
      rw [LmdbFile.perform, ends_bind]
      exact (refines.putRoute mild destination nextHop).weaken fun _ _ done => ⟨rfl, done⟩
  | putTimedRoutes table =>
      cases performed
      rw [LmdbFile.perform, ends_bind]
      exact (refines.putTimedRoutes mild table).always fun _ _ done => ⟨rfl, done⟩
  | pruneChain chain keep =>
      obtain ⟨after, pruned, same⟩ := except_bind_ok_iff.mp performed
      cases same
      rw [LmdbFile.perform, ends_bind]
      exact (refines.pruneChain mild sound within pruned).always fun _ _ done => ⟨rfl, done⟩
  | clear =>
      cases performed
      rw [LmdbFile.perform, ends_bind]
      exact (refines.reset mild).always fun _ _ done => ⟨rfl, done⟩

end Writes

end Loti.LmdbFile
