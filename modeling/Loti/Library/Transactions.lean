import Mathlib.Data.List.Basic

/-!
A transactional store with a single writer: committed data and at most one open write transaction,
which works on its own copy. Every call of the writer may fail as a script says; the calls after the
end of the script succeed. A commit consumes its transaction even when it fails, and an abort of a
transaction that is consumed already is counted.
-/

namespace Transactions

variable {δ ε : Type}

structure Env (δ ε : Type) where
  committed : δ
  writer : Option δ := none
  script : List (Option ε) := []
  reaborts : Nat := 0

namespace Env

def start (env : Env δ ε) : Option (Env δ ε) :=
  match env.writer with
  | some _ => none
  | none => some { env with writer := some env.committed }

/-- What the script says of the next call: `none` is success. -/
def result (env : Env δ ε) : Option ε := env.script.head?.join

def called (env : Env δ ε) : Env δ ε := { env with script := env.script.tail }

def write (env : Env δ ε) (change : δ → δ) : Env δ ε :=
  match env.result with
  | none => { env.called with writer := env.writer.map change }
  | some _ => env.called

def commit (env : Env δ ε) : Env δ ε :=
  match env.result with
  | none => { env.called with committed := env.writer.getD env.committed, writer := none }
  | some _ => { env.called with writer := none }

def abort (env : Env δ ε) : Env δ ε :=
  match env.writer with
  | some _ => { env with writer := none }
  | none => { env with reaborts := env.reaborts + 1 }

/-- `env'` differs from `env` only in its transaction and in how far the script has been
followed. -/
structure Within (env env' : Env δ ε) : Prop where
  committed : env'.committed = env.committed
  reaborts : env'.reaborts = env.reaborts

variable {env env' env'' : Env δ ε}

theorem Within.refl (env : Env δ ε) : Within env env := ⟨rfl, rfl⟩

theorem Within.trans (first : Within env env') (second : Within env' env'') : Within env env'' :=
  ⟨second.committed.trans first.committed, second.reaborts.trans first.reaborts⟩

theorem within_write (env : Env δ ε) (change : δ → δ) : Within env (env.write change) := by
  unfold write
  split <;> exact ⟨rfl, rfl⟩

theorem writer_write (env : Env δ ε) (change : δ → δ) :
    (env.write change).writer.isSome = env.writer.isSome := by
  unfold write
  split <;> simp [called]

theorem within_commit_failed {code : ε} (failed : env.result = some code) :
    Within env env.commit := by
  unfold commit
  rw [failed]
  exact ⟨rfl, rfl⟩

@[simp] theorem writer_commit (env : Env δ ε) : env.commit.writer = none := by
  unfold commit
  split <;> rfl

theorem within_abort (started : env.writer.isSome) : Within env env.abort := by
  unfold abort
  split
  · exact ⟨rfl, rfl⟩
  · rename_i closed
    simp [closed] at started

@[simp] theorem writer_abort (env : Env δ ε) : env.abort.writer = none := by
  unfold abort
  split
  · rfl
  · assumption

theorem script_write (env : Env δ ε) (change : δ → δ) :
    (env.write change).script = env.script.tail := by
  unfold write
  split <;> rfl

def Smooth (env : Env δ ε) (calls : Nat) : Prop := ∀ outcome ∈ env.script.take calls, outcome = none

theorem smooth_zero (env : Env δ ε) : env.Smooth 0 := by simp [Smooth]

theorem smooth_succ {calls : Nat} : env.Smooth (calls + 1) ↔ env.result = none ∧
    env.called.Smooth calls := by
  unfold Smooth result called
  rcases env.script with _ | ⟨_ | code, rest⟩ <;> simp

theorem smooth_write (env : Env δ ε) (change : δ → δ) (calls : Nat) :
    (env.write change).Smooth calls ↔ env.called.Smooth calls := by
  unfold Smooth
  rw [script_write]
  rfl

end Env

end Transactions
