import QuaiWorker.Invariants

/-!
# The uncle pools

`localUncles` and `remoteUncles` are Go maps from a block's hash to the block.
The model keeps them as lists of entries, so that `prepareWork` can try them in
any order.  This module shows that the lists stay maps: `mainLoop`'s
`chainSideCh` case adds a side block under its own hash, and only when neither
pool holds that hash; the clean ticker only drops entries; and no other code
touches the pools.

**Frame.**  A round, `commit` and `taskLoop` write only four fields of the
worker: `w.current`, `newTxs`, the snapshot and the pending tasks
(`Sys.RoundWorker`, one lemma per helper).

**Results.**
* `PoolsWellFormed`: every entry under its block's hash, and no hash twice in
  the two pools together.
* `uncle_pools_keyed`: in every reachable state the pools are well formed.
-/

namespace QuaiWorker

section Pools

variable {σ ι : Type} {b : Backend σ ι}

namespace Sys

variable {s s' : Sys σ ι}

/-- `s'`'s worker differs from `s`'s only in `w.current`, `newTxs`, the snapshot
and the pending tasks. -/
def RoundWorker (s s' : Sys σ ι) : Prop :=
  ∃ current newTxs snapshot pendingTasks,
    s'.worker = { s.worker with current, newTxs, snapshot, pendingTasks }

theorem RoundWorker.trans {s₁ : Sys σ ι} (h₁ : s.RoundWorker s₁) (h₂ : s₁.RoundWorker s') :
    s.RoundWorker s' := by
  obtain ⟨_, _, _, _, h₁⟩ := h₁
  obtain ⟨c, n, sn, p, h₂⟩ := h₂
  exact ⟨c, n, sn, p, by rw [h₂, h₁]⟩

theorem resume_roundWorker (addTxs : Option Nat) : s.RoundWorker (s.resume addTxs) :=
  ⟨_, _, _, _, rfl⟩

theorem afterCommit_roundWorker (after : AfterCommit σ) : s.RoundWorker (s.afterCommit after) := by
  cases after <;> exact ⟨_, _, _, _, rfl⟩

theorem commitEnv_roundWorker (env : Environment σ) (after : AfterCommit σ) :
    s.RoundWorker (s.commitEnv b env after) := by
  unfold commitEnv
  split
  · dsimp only
    split
    · exact afterCommit_roundWorker after
    · exact ⟨_, _, _, _, rfl⟩
  · cases after <;> exact ⟨_, _, _, _, rfl⟩

theorem nextBatch_roundWorker (round : Round σ) (batches : List (List (Address × List Transaction))) :
    s.RoundWorker (s.nextBatch b round batches) := by
  cases batches with
  | nil =>
      exact commitEnv_roundWorker _ _
  | cons txs rest =>
      exact ⟨_, _, _, _, rfl⟩

theorem commitWork_roundWorker (interrupt : Option Nat) (timestamp : Int) (addTxs : Option Nat) :
    s.RoundWorker (s.commitWork b interrupt timestamp addTxs) := by
  unfold commitWork
  split
  · exact resume_roundWorker addTxs
  · dsimp only
    split
    · exact resume_roundWorker addTxs
    · exact nextBatch_roundWorker _ _

theorem txsEvent_roundWorker (txs : List Transaction) : s.RoundWorker (s.txsEvent b txs) := by
  unfold txsEvent
  dsimp only
  split
  · split
    · exact ⟨_, _, _, _, rfl⟩
    · split <;> exact ⟨_, _, _, _, rfl⟩
  · split
    · exact commitWork_roundWorker _ _ _
    · exact resume_roundWorker _

theorem roundStep_roundWorker (hs : s.roundStep b = some s') : s.RoundWorker s' := by
  rcases roundStep_some hs with ⟨_, _, _, _, _, -, -, rfl⟩ | ⟨_, _, _, _, -, -, -, rfl⟩ |
      ⟨_, _, _, _, -, -, -, rfl⟩ | ⟨_, _, _, _, -, -, rfl⟩ | ⟨_, _, _, _, _, -, -, rfl⟩ |
      ⟨_, _, _, -, -, rfl⟩
  · exact ⟨_, _, _, _, rfl⟩
  · exact ⟨_, _, _, _, rfl⟩
  · exact nextBatch_roundWorker _ _
  · exact commitEnv_roundWorker _ _
  · exact ⟨_, _, _, _, rfl⟩
  · exact nextBatch_roundWorker _ _

theorem taskRecv_roundWorker (hs : s.taskRecv b = some s') : s.RoundWorker s' := by
  obtain ⟨_, _, after, -, rfl⟩ := taskRecv_some hs
  cases after <;> exact ⟨_, _, _, _, rfl⟩

end Sys

/-- Every entry of the uncle pools is under its block's hash, and no hash is in
the two pools together twice. -/
structure PoolsWellFormed (b : Backend σ ι) (w : Worker σ) : Prop where
  hash_eq : ∀ hash block, (hash, block) ∈ w.localUncles ++ w.remoteUncles → hash = b.hash block.header
  nodup : ((w.localUncles ++ w.remoteUncles).map Prod.fst).Nodup

namespace PoolsWellFormed

variable {s s' : Sys σ ι}

theorem of_roundWorker (h : PoolsWellFormed b s.worker) (hw : s.RoundWorker s') :
    PoolsWellFormed b s'.worker := by
  obtain ⟨_, _, _, _, hw⟩ := hw
  rw [hw]
  exact ⟨h.hash_eq, h.nodup⟩

/-- Pools that hold the old entries and one more, under its block's hash and a
hash neither pool held, are well formed. -/
theorem of_perm {w w' : Worker σ} (h : PoolsWellFormed b w) {block : Block}
    (hnew : b.hash block.header ∉ (w.localUncles ++ w.remoteUncles).map Prod.fst)
    (hperm : (w'.localUncles ++ w'.remoteUncles).Perm
      ((b.hash block.header, block) :: (w.localUncles ++ w.remoteUncles))) :
    PoolsWellFormed b w' := by
  refine ⟨fun hash blk hmem => ?_, (hperm.map Prod.fst).nodup_iff.mpr (List.nodup_cons.mpr ⟨hnew, h.nodup⟩)⟩
  rcases List.mem_cons.mp (hperm.subset hmem) with heq | hm
  · cases heq
    rfl
  · exact h.hash_eq _ _ hm

/-- A side block enters a pool only under its own hash, and only when neither
pool holds that hash. -/
theorem sideEvent (h : PoolsWellFormed b s.worker) (block : Block) :
    PoolsWellFormed b (s.sideEvent b block).worker := by
  have hadd (hnew : b.hash block.header ∉ (s.worker.localUncles ++ s.worker.remoteUncles).map Prod.fst) :
      PoolsWellFormed b (s.addSideBlock b block).worker := by
    dsimp only [Sys.addSideBlock]
    split_ifs
    · refine h.of_perm hnew ?_
      rw [List.append_assoc, List.singleton_append]
      exact List.perm_middle
    · refine h.of_perm hnew ?_
      rw [← List.append_assoc]
      exact List.perm_append_singleton _ _
  unfold Sys.sideEvent
  dsimp only
  split
  · exact h
  · rename_i hknown
    have h' := hadd (by rwa [List.map_append, List.mem_append])
    split
    · split
      · split
        · refine h'.of_roundWorker (Sys.RoundWorker.trans ?_ (Sys.commitEnv_roundWorker _ _))
          exact ⟨_, _, _, _, rfl⟩
        · exact h'
      · exact h'
    · exact h'

/-- The clean ticker only drops entries. -/
theorem cleanTick (h : PoolsWellFormed b s.worker) : PoolsWellFormed b s.cleanTick.worker := by
  unfold Sys.cleanTick
  split
  · refine ⟨fun hash block hmem => h.hash_eq hash block ?_, ?_⟩
    · simp only [List.mem_append, List.mem_filter] at hmem ⊢
      tauto
    · exact h.nodup.sublist ((List.filter_sublist _).append (List.filter_sublist _) |>.map _)
  · exact h

/-- Every step keeps the pools well formed. -/
theorem step (h : PoolsWellFormed b s.worker) {a : Action} (hs : s.step b a = some s') :
    PoolsWellFormed b s'.worker := by
  cases a with
  | mainChainSide =>
      obtain ⟨_, _, -, -, rfl⟩ := Sys.step_mainChainSide hs
      exact sideEvent (by exact h) _
  | mainCleanTick =>
      obtain ⟨-, rfl⟩ := Sys.step_mainCleanTick hs
      exact cleanTick h
  | mainNewWork =>
      obtain ⟨_, -, -, rfl⟩ := Sys.step_mainNewWork hs
      exact h.of_roundWorker (Sys.commitWork_roundWorker _ _ _)
  | mainTxs =>
      obtain ⟨_, _, -, -, rfl⟩ := Sys.step_mainTxs hs
      exact h.of_roundWorker (Sys.txsEvent_roundWorker _)
  | mainRound =>
      exact h.of_roundWorker (Sys.roundStep_roundWorker hs)
  | mainTaskExit =>
      obtain ⟨_, _, after, -, -, rfl⟩ := Sys.step_mainTaskExit hs
      cases after <;> exact h.of_roundWorker ⟨_, _, _, _, rfl⟩
  | taskRecv =>
      exact h.of_roundWorker (Sys.taskRecv_roundWorker hs)
  | generatePendingHeader header =>
      simp only [Sys.step] at hs
      split at hs <;> cases hs <;>
        (rw [generatePendingHeader_worker]; exact ⟨h.hash_eq, h.nodup⟩)
  | _ =>
      simp only [Sys.step] at hs
      repeat' split at hs
      all_goals first
        | (cases hs; exact ⟨h.hash_eq, h.nodup⟩)
        | cases hs

/-- In every reachable state the uncle pools are maps: every entry is under its
block's hash, and no hash is in the two pools together twice. -/
theorem uncle_pools_keyed {start : Bool} {s : Sys σ ι} (h : Reachable b start s) :
    PoolsWellFormed b s.worker := by
  induction h with
  | init =>
      exact ⟨fun _ _ hmem => (nomatch hmem), List.nodup_nil⟩
  | step _ _ hs ih =>
      exact ih.step hs

/-- `sideUncleSchedule` leaves its side block in the remote pool. -/
theorem uncle_pools_keyed_side_block :
    ∃ s, (Sys.init chainBackend false).run chainBackend sideUncleSchedule = some s ∧
      s.worker.remoteUncles.length = 1 ∧ PoolsWellFormed chainBackend s.worker := by
  obtain ⟨s, hrun, hlen⟩ : ∃ s, (Sys.init chainBackend false).run chainBackend sideUncleSchedule =
      some s ∧ s.worker.remoteUncles.length = 1 := ⟨_, rfl, rfl⟩
  exact ⟨s, hrun, hlen, uncle_pools_keyed (Reachable.init.run hrun)⟩

end PoolsWellFormed

end Pools

end QuaiWorker
