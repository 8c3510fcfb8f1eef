import QuaiWorker.Backend

/-!
# The sealing environment

`environment` is the scratchpad of one block under construction.  This module
embeds the struct, its deep `copy`, `unclelist`, `discard`, the constructor
`makeEnv` and uncle admission `commitUncle`.

**Maps and sets.**  `uncles` is a Go map from hash to header; here it is an
association list whose keys `commitUncle` keeps distinct.  `ancestors` and
`family` are `mapset.Set`s; here lists, `Add` being `List.insert`.

**Prefetchers.**  `makeEnv` starts a prefetcher on the state it opens.  The
prefetcher is a goroutine of the process, not a value of the environment, so
`makeEnv` takes the identity of the new prefetcher and `discard` removes that
identity from the set of running ones.

**Results.**
* `commitUncle_ok_iff`: an uncle is admitted exactly when it passes the four
  rules, and admission adds just that entry.
* `makeEnv_spec`: a fresh environment is empty, holds the new prefetcher,
  and has `ancestors ⊆ family`.
-/

namespace QuaiWorker

section Environment

variable {σ ι : Type}

/-- `environment`. -/
structure Environment (σ : Type) where
  signer : Nat
  state : StateDB σ
  ancestors : List Hash
  family : List Hash
  tcount : Nat
  gasPool : Option Nat
  coinbase : Address
  header : Header
  txs : List Transaction
  receipts : List Receipt
  uncles : List (Hash × Header)
  externalGasUsed : Nat
  externalBlockLength : Int
deriving DecidableEq

/-- `copyReceipts`: a copy of every receipt, by value. -/
def copyReceipts (receipts : List Receipt) : List Receipt := receipts.map id

@[simp] theorem copyReceipts_eq (receipts : List Receipt) :
    copyReceipts receipts = receipts := by
  simp [copyReceipts]

namespace Environment

/-- `environment.copy`: the fields it copies; the two external-gas fields are
not among them and start from zero in the copy. -/
def copy (env : Environment σ) : Environment σ where
  signer := env.signer
  state := env.state.copy
  ancestors := env.ancestors
  family := env.family
  tcount := env.tcount
  gasPool := env.gasPool
  coinbase := env.coinbase
  header := env.header
  txs := env.txs
  receipts := copyReceipts env.receipts
  uncles := env.uncles
  externalGasUsed := 0
  externalBlockLength := 0

/-- `environment.unclelist`. -/
def unclelist (env : Environment σ) : List Header := env.uncles.map Prod.snd

/-- `environment.discard`: the running prefetchers once this environment's
prefetcher is stopped. -/
def discard (running : List Nat) (env : Environment σ) : List Nat :=
  match env.state.prefetcher with
  | some id => running.erase id
  | none => running

@[simp] theorem copy_txs (env : Environment σ) : env.copy.txs = env.txs := rfl
@[simp] theorem copy_receipts (env : Environment σ) : env.copy.receipts = env.receipts := by
  simp [copy]
@[simp] theorem copy_tcount (env : Environment σ) : env.copy.tcount = env.tcount := rfl
@[simp] theorem copy_uncles (env : Environment σ) : env.copy.uncles = env.uncles := rfl
@[simp] theorem copy_ancestors (env : Environment σ) : env.copy.ancestors = env.ancestors := rfl
@[simp] theorem copy_family (env : Environment σ) : env.copy.family = env.family := rfl
@[simp] theorem copy_header (env : Environment σ) : env.copy.header = env.header := rfl
@[simp] theorem copy_gasPool (env : Environment σ) : env.copy.gasPool = env.gasPool := rfl
@[simp] theorem copy_prefetcher (env : Environment σ) :
    env.copy.state.prefetcher = none := rfl

/-- One iteration of `makeEnv`'s ancestor walk. -/
def addAncestor (b : Backend σ ι) (env : Environment σ) (ancestor : Block) : Environment σ :=
  let family := ancestor.uncles.foldl (fun fam uncle => fam.insert (b.hash uncle)) env.family
  { env with
    family := family.insert (b.hash ancestor.header)
    ancestors := env.ancestors.insert (b.hash ancestor.header) }

end Environment

/-- The state `makeEnv` opens: `StateAt(parent.Root())`, or, when that state
is gone, `StateAtBlock(parent, 1024, ...)`. -/
def openState (b : Backend σ ι) (parent : Block) : Except String σ :=
  match b.stateAt parent.header.root with
  | .ok world => .ok world
  | .error _ => b.stateAtBlock parent

/-- The environment `makeEnv` builds before its ancestor walk, on a state whose
prefetcher it has just started. -/
def freshEnv (b : Backend σ ι) (world : σ) (prefetcher : Nat) (header : Header)
    (coinbase : Address) : Environment σ where
  signer := b.makeSigner header.number
  state := { world, thash := 0, txIndex := 0, prefetcher := some prefetcher }
  ancestors := []
  family := []
  tcount := 0
  gasPool := none
  coinbase := coinbase
  header := header
  txs := []
  receipts := []
  uncles := []
  externalGasUsed := 0
  externalBlockLength := 0

/-- `worker.makeEnv`, given the identity of the prefetcher it starts. -/
def makeEnv (b : Backend σ ι) (prefetcher : Nat) (parent : Block) (header : Header)
    (coinbase : Address) : Except String (Environment σ) :=
  match openState b parent with
  | .error err => .error err
  | .ok world =>
      .ok ((b.getBlocksFromHash (b.hash parent.header) 7).foldl (Environment.addAncestor b)
        (freshEnv b world prefetcher header coinbase))

/-- `worker.commitUncle`. -/
def commitUncle (b : Backend σ ι) (env : Environment σ) (uncle : Header) :
    Except String (Environment σ) :=
  let hash := b.hash uncle
  if hash ∈ env.uncles.map Prod.fst then .error "uncle not unique"
  else if env.header.parentHash = uncle.parentHash then .error "uncle is sibling"
  else if uncle.parentHash ∉ env.ancestors then .error "uncle\x27s parent unknown"
  else if hash ∈ env.family then .error "uncle already included"
  else .ok { env with uncles := env.uncles ++ [(hash, uncle)] }

/-- The four admission rules of `commitUncle`. -/
def UncleAdmissible (b : Backend σ ι) (env : Environment σ) (uncle : Header) : Prop :=
  b.hash uncle ∉ env.uncles.map Prod.fst ∧
  env.header.parentHash ≠ uncle.parentHash ∧
  uncle.parentHash ∈ env.ancestors ∧
  b.hash uncle ∉ env.family

/-- `commitUncle` admits exactly the admissible uncles, and adds only that entry. -/
theorem commitUncle_ok_iff (b : Backend σ ι) (env env' : Environment σ) (uncle : Header) :
    commitUncle b env uncle = .ok env' ↔
      UncleAdmissible b env uncle ∧
      env' = { env with uncles := env.uncles ++ [(b.hash uncle, uncle)] } := by
  simp only [commitUncle, UncleAdmissible]
  split_ifs <;> simp_all [eq_comm]

/-- The ancestor walk changes only `ancestors` and `family`, and keeps
`ancestors ⊆ family`. -/
theorem foldl_addAncestor (b : Backend σ ι) (blocks : List Block) :
    ∀ env : Environment σ, ∃ A F,
      blocks.foldl (Environment.addAncestor b) env = { env with ancestors := A, family := F } ∧
      (env.ancestors ⊆ env.family → A ⊆ F) := by
  have hfold : ∀ (us : List Header) (fam : List Hash),
      fam ⊆ us.foldl (fun fam uncle => fam.insert (b.hash uncle)) fam := by
    intro us
    induction us with
    | nil =>
        simp
    | cons u us ih =>
        exact fun fam x hx => ih _ (List.mem_insert_of_mem hx)
  induction blocks with
  | nil =>
      exact fun env => ⟨env.ancestors, env.family, rfl, id⟩
  | cons a blocks ih =>
      intro env
      obtain ⟨A, F, hAF, hsub⟩ := ih (env.addAncestor b a)
      refine ⟨A, F, hAF, fun h => hsub ?_⟩
      intro x hx
      simp only [Environment.addAncestor, List.mem_insert_iff] at hx ⊢
      rcases hx with rfl | hx
      · exact .inl rfl
      · exact .inr (hfold _ _ (h hx))

/-- What `makeEnv` returns: the given header and coinbase, no transactions,
receipts or uncles, no gas pool yet, the new prefetcher, and
`ancestors ⊆ family`. -/
theorem makeEnv_spec (b : Backend σ ι) (id : Nat) (parent : Block) (header : Header)
    (coinbase : Address) {env : Environment σ}
    (h : makeEnv b id parent header coinbase = .ok env) :
    env.header = header ∧ env.coinbase = coinbase ∧ env.txs = [] ∧ env.receipts = [] ∧
      env.tcount = 0 ∧ env.uncles = [] ∧ env.gasPool = none ∧
      env.state.prefetcher = some id ∧ env.ancestors ⊆ env.family := by
  unfold makeEnv at h
  split at h
  · cases h
  · rename_i world _
    obtain ⟨A, F, hAF, hsub⟩ := foldl_addAncestor b (b.getBlocksFromHash (b.hash parent.header) 7)
      (freshEnv b world id header coinbase)
    cases h
    rw [hAF]
    exact ⟨rfl, rfl, rfl, rfl, rfl, rfl, rfl, rfl, hsub (by simp [freshEnv])⟩

end Environment

end QuaiWorker
