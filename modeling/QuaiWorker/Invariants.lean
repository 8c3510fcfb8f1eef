import QuaiWorker.Envs

/-!
# Invariants of every environment

Every environment the worker holds, in every reachable state, under every
interleaving of rounds, chain-side events, transaction events and copies, keeps
two invariants.

* `TxsConsistent` (module `Transactions`): `len(txs) = len(receipts) =
  tcount`, each receipt being the one `ApplyTransaction` returned for the
  transaction at its index, on a state that `Prepare` tagged with that
  transaction's hash and index.  So `totalFees`, over a block that holds the
  environment's transactions, never reads past its receipts.
* `UnclesWellFormed`: at most two uncles, each under its own hash, whose parent
  is an ancestor and not the block's own parent, and which is not yet in the
  family; and `ancestors ⊆ family`.

Both follow from `Reachable.envs`: `prepareWork` returns environments that have
them, and every operation on an environment keeps them.

**Results.**
* `txs_receipts_consistent`: `TxsConsistent` and `totalFees` never out of range.
* `uncles_well_formed`: `UnclesWellFormed`.
-/

namespace QuaiWorker

section Invariants

variable {σ ι : Type} {b : Backend σ ι}

/-- `params.Ether`, in wei. -/
def etherWei : Nat := 10 ^ 18

/-- The loop of `totalFees` from index `i`: transaction `i` reads `receipts[i]`,
which is `none` where Go indexes out of range and panics. -/
def feesWei (effectiveGasTip : Transaction → Int → Int) (baseFee : Int) (receipts : List Receipt) :
    Nat → List Transaction → Option Int
  | _, [] => some 0
  | i, tx :: txs =>
      match receipts[i]? with
      | none => none
      | some receipt =>
          (feesWei effectiveGasTip baseFee receipts (i + 1) txs).map
            fun fees => receipt.gasUsed * effectiveGasTip tx baseFee + fees

/-- `totalFees(block, receipts)`, in ether.  `EffectiveGasTip`'s error is
dropped, as in the source. -/
def totalFees (effectiveGasTip : Transaction → Int → Int) (block : Block)
    (receipts : List Receipt) : Option ℚ :=
  (feesWei effectiveGasTip block.header.baseFee receipts 0 block.transactions).map
    fun (fees : Int) => (fees : ℚ) / etherWei

/-- The loop reads only indices below `i + len(txs)`. -/
theorem feesWei_isSome (effectiveGasTip : Transaction → Int → Int) (baseFee : Int)
    (receipts : List Receipt) (txs : List Transaction) (i : Nat)
    (h : i + txs.length ≤ receipts.length) :
    (feesWei effectiveGasTip baseFee receipts i txs).isSome := by
  induction txs generalizing i with
  | nil =>
      rfl
  | cons tx txs ih =>
      simp only [List.length_cons] at h
      rw [feesWei, List.getElem?_eq_getElem (by omega)]
      simpa using ih (i + 1) (by omega)

/-- `TxsConsistent` holds of a copy, and of an environment that differs only in
fields it does not read. -/
theorem txsConsistent_preserved : EnvPreserved b (TxsConsistent b) where
  copy _ h := h.congr rfl (by simp) rfl
  adjustGasLimit head env h := by
    obtain ⟨_, heq⟩ := adjustGasLimit_eq b head env
    rw [heq]
    exact h.congr rfl rfl rfl
  initGasPool _ h := h.congr rfl rfl rfl
  loop _ _ _ _ h hstep := commitTransactionsStep_consistent h hstep
  commitUncle env uncle env' h _ hok := by
    obtain ⟨-, rfl⟩ := (commitUncle_ok_iff b env env' uncle).mp hok
    exact h.congr rfl rfl rfl

theorem prepareWork_txsConsistent {w : Worker σ} {head : Option Block} {id : Nat}
    {params : GenerateParams} {env : Environment σ}
    (h : prepareWork b w head id params = .ok env) :
    TxsConsistent b env := by
  refine txsConsistent_preserved.prepareWork (fun parent header coinbase env hmk => ?_) h
  obtain ⟨-, -, htxs, hreceipts, htcount, -⟩ := makeEnv_spec b id parent header coinbase hmk
  exact ⟨by simp [htxs, htcount], by simp [hreceipts, htcount], by simp [htxs]⟩

/-- In every reachable state, every environment the worker holds has as many
transactions as receipts as `tcount`, each receipt returned by `ApplyTransaction`
for the transaction at its index on a state tagged with its hash and index, so
`totalFees` of a block holding the environment's transactions is defined. -/
theorem txs_receipts_consistent {start : Bool} {s : Sys σ ι} (h : Reachable b start s) :
    ∀ env ∈ s.envs, TxsConsistent b env ∧
      ∀ (effectiveGasTip : Transaction → Int → Int) (block : Block),
        block.transactions = env.txs → (totalFees effectiveGasTip block env.receipts).isSome := by
  intro env henv
  have hc := h.envs txsConsistent_preserved (fun _ _ _ _ _ => prepareWork_txsConsistent) env henv
  refine ⟨hc, fun effectiveGasTip block hblock => ?_⟩
  have hfees := feesWei_isSome effectiveGasTip block.header.baseFee env.receipts
    block.transactions 0 (by rw [hblock, hc.txs_length, hc.receipts_length]; omega)
  rwa [totalFees, Option.isSome_map']

/-- A round on a chain-head event that has committed the pool's one transaction. -/
def oneTxSchedule : List Action :=
  [.pool (.ok [(1, [{ hash := 1, sender := 1, nonce := 0, replayProtected := false }])]) [],
   .chainHead sampleHead, .newWorkChainHead, .mainNewWork, .mainRound]

theorem txs_receipts_consistent_one_tx :
    ∃ s, (Sys.init basicBackend false).run basicBackend oneTxSchedule = some s ∧
      (∃ env ∈ s.envs, env.tcount = 1) ∧
      ∀ env ∈ s.envs, TxsConsistent basicBackend env ∧
        ∀ (effectiveGasTip : Transaction → Int → Int) (block : Block),
          block.transactions = env.txs → (totalFees effectiveGasTip block env.receipts).isSome := by
  obtain ⟨s, hrun, htx⟩ : ∃ s, (Sys.init basicBackend false).run basicBackend oneTxSchedule =
      some s ∧ ∃ env ∈ s.envs, env.tcount = 1 := ⟨_, rfl, by decide⟩
  exact ⟨s, hrun, htx, txs_receipts_consistent (Reachable.init.run hrun)⟩

/-- At most two uncles, each under its own hash, whose parent is an ancestor but
not the block's parent and which is not yet in the family; and the ancestors
are part of the family. -/
structure UnclesWellFormed (b : Backend σ ι) (env : Environment σ) : Prop where
  length_le : env.uncles.length ≤ 2
  keys_nodup : (env.uncles.map Prod.fst).Nodup
  hash_eq : ∀ h u, (h, u) ∈ env.uncles → h = b.hash u
  parent_ancestor : ∀ h u, (h, u) ∈ env.uncles → u.parentHash ∈ env.ancestors
  not_sibling : ∀ h u, (h, u) ∈ env.uncles → u.parentHash ≠ env.header.parentHash
  not_family : ∀ h u, (h, u) ∈ env.uncles → h ∉ env.family
  ancestors_subset : env.ancestors ⊆ env.family

/-- The invariant reads only the uncles, the ancestry and the parent hash. -/
theorem UnclesWellFormed.congr {env env' : Environment σ} (h : UnclesWellFormed b env)
    (huncles : env'.uncles = env.uncles) (hancestors : env'.ancestors = env.ancestors)
    (hfamily : env'.family = env.family) (hparent : env'.header.parentHash = env.header.parentHash) :
    UnclesWellFormed b env' := by
  obtain ⟨h1, h2, h3, h4, h5, h6, h7⟩ := h
  rw [← huncles, ← hancestors, ← hfamily, ← hparent] at *
  exact ⟨h1, h2, h3, h4, h5, h6, h7⟩

/-- An admitted uncle, while there are fewer than two, keeps the invariant. -/
theorem UnclesWellFormed.commitUncle {env env' : Environment σ} {uncle : Header}
    (h : UnclesWellFormed b env) (hlen : env.uncles.length < 2)
    (hok : commitUncle b env uncle = .ok env') :
    UnclesWellFormed b env' := by
  obtain ⟨⟨hnew, hsib, hanc, hfam⟩, rfl⟩ := (commitUncle_ok_iff b env env' uncle).mp hok
  obtain ⟨h1, h2, h3, h4, h5, h6, h7⟩ := h
  have hnodup : (env.uncles.map Prod.fst ++ [b.hash uncle]).Nodup :=
    (List.nodup_cons.mpr ⟨hnew, h2⟩).perm (List.perm_append_singleton _ _).symm
  refine ⟨by simp; omega, by simpa using hnodup, ?_, ?_, ?_, ?_, h7⟩ <;>
    intro hash u hu <;> simp only [List.mem_append, List.mem_singleton, Prod.mk.injEq] at hu <;>
    rcases hu with hu | ⟨rfl, rfl⟩
  exacts [h3 _ _ hu, rfl, h4 _ _ hu, hanc, h5 _ _ hu, Ne.symm hsib, h6 _ _ hu, hfam]

theorem unclesWellFormed_preserved : EnvPreserved b (UnclesWellFormed b) where
  copy _ h := h.congr rfl rfl rfl rfl
  adjustGasLimit head env h := by
    obtain ⟨_, heq⟩ := adjustGasLimit_eq b head env
    rw [heq]
    exact h.congr rfl rfl rfl rfl
  initGasPool _ h := h.congr rfl rfl rfl rfl
  loop _ _ _ _ h hstep :=
    let ⟨h1, h2, h3, h4, _⟩ := commitTransactionsStep_frame hstep
    h.congr h1 h2 h3 h4
  commitUncle _ _ _ h hlen hok := h.commitUncle hlen hok

theorem prepareWork_unclesWellFormed {w : Worker σ} {head : Option Block} {id : Nat}
    {params : GenerateParams} {env : Environment σ}
    (h : prepareWork b w head id params = .ok env) :
    UnclesWellFormed b env := by
  refine unclesWellFormed_preserved.prepareWork (fun parent header coinbase env hmk => ?_) h
  obtain ⟨-, -, -, -, -, huncles, -, -, hsub⟩ := makeEnv_spec b id parent header coinbase hmk
  exact ⟨by simp [huncles], by simp [huncles], by simp [huncles], by simp [huncles],
    by simp [huncles], by simp [huncles], hsub⟩

/-- In every reachable state, every environment the worker holds has at most two
uncles, each under its own hash, with a parent among the ancestors, not a
sibling, and not already in the family; and its ancestors are in its family. -/
theorem uncles_well_formed {start : Bool} {s : Sys σ ι} (h : Reachable b start s) :
    ∀ env ∈ s.envs, UnclesWellFormed b env :=
  h.envs unclesWellFormed_preserved fun _ _ _ _ _ => prepareWork_unclesWellFormed

/-- A side block on block 4 reaches the remote uncle pool, and the next round,
on the sample chain, takes it as an uncle. -/
def sideUncleSchedule : List Action :=
  [.chainHead sampleHead,
   .chainSide { header := sampleHeader 5 101 40 51, transactions := [], uncles := [] },
   .mainChainSide, .newWorkChainHead, .mainNewWork]

theorem uncles_well_formed_side_uncle :
    ∃ s, (Sys.init chainBackend false).run chainBackend sideUncleSchedule = some s ∧
      (∃ env ∈ s.envs, env.uncles.length = 1) ∧ ∀ env ∈ s.envs, UnclesWellFormed chainBackend env := by
  obtain ⟨s, hrun, hu⟩ : ∃ s, (Sys.init chainBackend false).run chainBackend sideUncleSchedule =
      some s ∧ ∃ env ∈ s.envs, env.uncles.length = 1 := ⟨_, rfl, by decide⟩
  exact ⟨s, hrun, hu, uncles_well_formed (Reachable.init.run hrun)⟩

end Invariants

end QuaiWorker
