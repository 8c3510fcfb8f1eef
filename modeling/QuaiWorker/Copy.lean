import QuaiWorker.Invariants

/-!
# The environment copy

`environment.copy` is documented as a deep copy, and `commit` and the
chain-side handler publish copies.  It copies every field of the struct but
two: `externalGasUsed` and `externalBlockLength` start from zero in the copy.
`adjustGasLimit` reads both, so on an environment where they are set, a copy
gets another gas limit than the original (`copy_drops_external_gas`).

**Where it shows.**  Nothing in `worker.go` writes the two fields after
`makeEnv` sets them to zero, and no operation of the worker on an environment
changes them.  In every reachable state every environment the worker holds has
both at zero, so there the copy agrees with the original on every field but
the state, whose copy has its prefetcher stopped, and `adjustGasLimit` cannot
tell them apart (`envs_external_gas_zero`).  `FinalizeAndAssemble` and
`updateSnapshot` read neither field: `commit` and `updateSnapshot` of a copy
are those of the original, whatever the fields hold.

**Results.**
* `copy_drops_external_gas`: an environment with external gas whose copy gets
  a lower gas limit.
* `envs_external_gas_zero`: in every reachable state the two fields are zero,
  and copies agree with their originals up to the state's prefetcher.
-/

namespace QuaiWorker

section Copy

variable {σ ι : Type}

namespace Environment

/-- The copy is the environment with a copied state and the two external-gas
fields reset. -/
theorem copy_eq (env : Environment σ) :
    env.copy = { env with state := env.state.copy, externalGasUsed := 0, externalBlockLength := 0 } := by
  simp [copy]

/-- Copying a copy changes nothing: `commit`, which copies what it is given
before `FinalizeAndAssemble`, assembles the same block from a copy as from the
original. -/
theorem copy_copy (env : Environment σ) : env.copy.copy = env.copy := by
  simp [copy_eq, StateDB.copy]

end Environment

/-- `updateSnapshot` reads no field the copy drops. -/
theorem updateSnapshot_copy (env : Environment σ) : updateSnapshot env.copy = updateSnapshot env := by
  simp [updateSnapshot, Environment.copy_eq, Environment.unclelist, StateDB.copy]

/-- `basicBackend` with a `CalcGasLimit` that moves the limit by a 1024th
towards the parent's usage: up when more than half the limit was used, down
otherwise. -/
def gasTargetBackend : Backend Unit (List Transaction) :=
  { basicBackend with
    calcGasLimit := fun parentGasLimit gasUsed _ =>
      if parentGasLimit / 2 < gasUsed then parentGasLimit + parentGasLimit / 1024
      else parentGasLimit - parentGasLimit / 1024 }

/-- `sampleEnv` carrying forty million gas of one external block. -/
def externalEnv : Environment Unit :=
  { sampleEnv with externalGasUsed := 40000000, externalBlockLength := 1 }

/-- The copy of `externalEnv` has no external gas, so on the sample head
`adjustGasLimit` lowers its gas limit where it raises the original's. -/
theorem copy_drops_external_gas :
    externalEnv.copy.externalGasUsed = 0 ∧ externalEnv.externalGasUsed = 40000000 ∧
      externalEnv.copy.externalBlockLength = 0 ∧ externalEnv.externalBlockLength = 1 ∧
      (adjustGasLimit gasTargetBackend (some sampleHead) externalEnv).header.gasLimit = 30029296 ∧
      (adjustGasLimit gasTargetBackend (some sampleHead) externalEnv.copy).header.gasLimit =
        29970704 :=
  ⟨rfl, rfl, rfl, rfl, rfl, rfl⟩

/-- The environments of the worker carry no external gas. -/
def NoExternalGas (env : Environment σ) : Prop :=
  env.externalGasUsed = 0 ∧ env.externalBlockLength = 0

/-- `commitTransaction` leaves the two external-gas fields alone. -/
theorem commitTransaction_external {b : Backend σ ι} {env env' : Environment σ}
    {tx : Option Transaction} {res : Except TxError (List Nat)}
    (h : commitTransaction b env tx = (res, env')) :
    env'.externalGasUsed = env.externalGasUsed ∧
      env'.externalBlockLength = env.externalBlockLength := by
  unfold commitTransaction at h
  split at h
  · cases h
    exact ⟨rfl, rfl⟩
  · dsimp only at h
    split at h <;> cases h <;> exact ⟨rfl, rfl⟩

/-- No operation of the worker on an environment sets external gas. -/
theorem noExternalGas_preserved (b : Backend σ ι) : EnvPreserved b NoExternalGas where
  copy _ _ := ⟨rfl, rfl⟩
  adjustGasLimit head env h := by
    obtain ⟨_, heq⟩ := adjustGasLimit_eq b head env
    rw [heq]
    exact h
  initGasPool _ h := h
  loop env txs load env' h hstep := by
    rcases commitTransactionsStep_env hstep with rfl | ⟨tx, res, env₁, heq, hres⟩
    · exact h
    · obtain ⟨hgas, hlen⟩ := commitTransaction_external heq
      rcases hres with ⟨rfl, -⟩ | ⟨_, -, rfl⟩ <;> exact ⟨hgas.trans h.1, hlen.trans h.2⟩
  commitUncle env uncle env' h _ hok := by
    obtain ⟨-, rfl⟩ := (commitUncle_ok_iff b env env' uncle).mp hok
    exact h

/-- `makeEnv` starts without external gas. -/
theorem makeEnv_noExternalGas (b : Backend σ ι) {id : Nat} {parent : Block} {header : Header}
    {coinbase : Address} {env : Environment σ} (h : makeEnv b id parent header coinbase = .ok env) :
    NoExternalGas env := by
  unfold makeEnv at h
  split at h
  · cases h
  · rename_i world _
    obtain ⟨A, F, hAF, -⟩ := foldl_addAncestor b (b.getBlocksFromHash (b.hash parent.header) 7)
      (freshEnv b world id header coinbase)
    cases h
    rw [hAF]
    exact ⟨rfl, rfl⟩

/-- In every reachable state, every environment the worker holds has
`externalGasUsed = 0` and `externalBlockLength = 0`; so its copy differs from
it only in the state, whose prefetcher the copy does not run, and
`adjustGasLimit` gives a copy the header it gives the original. -/
theorem envs_external_gas_zero {b : Backend σ ι} {start : Bool} {s : Sys σ ι}
    (h : Reachable b start s) :
    ∀ env ∈ s.envs, env.externalGasUsed = 0 ∧ env.externalBlockLength = 0 ∧
      env.copy = { env with state := env.state.copy } ∧
      ∀ head, (adjustGasLimit b head env.copy).header = (adjustGasLimit b head env).header := by
  intro env henv
  obtain ⟨hgas, hlen⟩ := h.envs (noExternalGas_preserved b)
    (fun _ _ _ _ _ hprep => (noExternalGas_preserved b).prepareWork
      (fun _ _ _ _ hmk => makeEnv_noExternalGas b hmk) hprep) env henv
  have hcopy : env.copy = { env with state := env.state.copy } := by
    rw [Environment.copy_eq, ← hgas, ← hlen]
  refine ⟨hgas, hlen, hcopy, fun head => ?_⟩
  rw [hcopy]
  unfold adjustGasLimit
  split <;> rfl

/-- `envs_external_gas_zero` after a round that has committed the pool's one
transaction. -/
theorem envs_external_gas_zero_one_tx :
    ∃ s, (Sys.init basicBackend false).run basicBackend oneTxSchedule = some s ∧ s.envs ≠ [] ∧
      ∀ env ∈ s.envs, env.externalGasUsed = 0 ∧ env.externalBlockLength = 0 ∧
        env.copy = { env with state := env.state.copy } ∧
        ∀ head, (adjustGasLimit basicBackend head env.copy).header =
          (adjustGasLimit basicBackend head env).header := by
  obtain ⟨s, hrun, hne⟩ : ∃ s, (Sys.init basicBackend false).run basicBackend oneTxSchedule =
      some s ∧ s.envs ≠ [] := ⟨_, rfl, by decide⟩
  exact ⟨s, hrun, hne, envs_external_gas_zero (Reachable.init.run hrun)⟩

end Copy

end QuaiWorker
