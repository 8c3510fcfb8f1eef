import QuaiWorker.Batch
import QuaiWorker.System
import Mathlib.Data.List.Nodup

/-!
# Transactions that arrive while the worker is stopped

`mainLoop`'s `txsCh` case, on a stopped worker that holds `w.current` with room
left for a transaction, files the event's transactions in a map from sender to
transactions (`txs[acc] = append(txs[acc], tx)`), builds a price-and-nonce
iterator over the map and runs `commitTransactions` on `w.current` with a nil
interrupt.  It republishes the snapshot only when `tcount` moved: "Only update
the snapshot if any new transactions were added to the pending block".

**The map.**  A Go map has no order; `groupBySender` keeps the keys in order of
first arrival, and what is stated of it below holds for any order of the keys.

**Results.**
* `groupBySender_lookup`: the map holds, under distinct keys, every sender of
  the event, with its transactions in arrival order.
* `commitTransactions_tcount`: a batch counts in `tcount` exactly the
  transactions it appends.
* `txsEvent_order`: on a stopped worker, the `txsCh` case appends to
  `w.current`, for every sender, a subsequence of its transactions in the
  event in arrival order, and republishes the snapshot exactly when it appended
  something.
-/

namespace QuaiWorker

section Arrivals

variable {σ ι : Type}

/-- The map update for one more transaction of the event. -/
theorem groupBySender_append (txs : List Transaction) (tx : Transaction) :
    groupBySender (txs ++ [tx]) =
      if tx.sender ∈ (groupBySender txs).map Prod.fst then
        (groupBySender txs).map fun group =>
          if group.1 = tx.sender then (group.1, group.2 ++ [tx]) else group
      else groupBySender txs ++ [(tx.sender, [tx])] := by
  simp only [groupBySender, List.foldl_append, List.foldl_cons, List.foldl_nil]

/-- Appending to the group of one key keeps the keys. -/
theorem keys_map_append_group (groups : List (Address × List Transaction)) (k : Address)
    (tx : Transaction) :
    (groups.map fun group => if group.1 = k then (group.1, group.2 ++ [tx]) else group).map
      Prod.fst = groups.map Prod.fst := by
  rw [List.map_map]
  exact List.map_congr_left fun group _ => by
    simp only [Function.comp]
    split_ifs <;> rfl

/-- Appending to the group of key `k` changes only what `k` looks up. -/
theorem lookup_map_append_group (groups : List (Address × List Transaction)) (k s : Address)
    (tx : Transaction) :
    (groups.map fun group => if group.1 = k then (group.1, group.2 ++ [tx]) else group).lookup s =
      if s = k then (groups.lookup s).map (· ++ [tx]) else groups.lookup s := by
  induction groups with
  | nil => split_ifs <;> rfl
  | cons group groups ih =>
      obtain ⟨k', v⟩ := group
      by_cases hk : k' = k
      · subst hk
        simp only [List.map_cons, if_pos, lookup_cons_ite, ih]
        split_ifs <;> rfl
      · simp only [List.map_cons, if_neg hk, lookup_cons_ite, ih]
        split_ifs with h₁ h₂ <;> first | rfl | exact absurd (h₁.symm.trans h₂) hk

/-- The map `mainLoop`'s `txsCh` case builds: its keys are distinct and are the
senders of the event, and each sender's entry holds its transactions in arrival
order. -/
theorem groupBySender_lookup (txs : List Transaction) :
    ((groupBySender txs).map Prod.fst).Nodup ∧
      (∀ s, s ∈ (groupBySender txs).map Prod.fst ↔ s ∈ txs.map Transaction.sender) ∧
      ∀ s, (groupBySender txs).lookup s =
        if s ∈ txs.map Transaction.sender then some (sentBy txs s) else none := by
  induction txs using List.reverseRecOn with
  | nil => exact ⟨List.nodup_nil, fun _ => Iff.rfl, fun _ => rfl⟩
  | append_singleton txs tx ih =>
      obtain ⟨hnodup, hkeys, hlookup⟩ := ih
      have hsent : ∀ s, sentBy (txs ++ [tx]) s = sentBy txs s ++ if tx.sender = s then [tx] else [] :=
        fun s => by simp [sentBy, List.filter_cons]
      rw [groupBySender_append]
      by_cases hmem : tx.sender ∈ (groupBySender txs).map Prod.fst
      · rw [if_pos hmem]
        rw [hkeys] at hmem
        refine ⟨by rwa [keys_map_append_group], fun s => ?_, ?_⟩
        · simp only [keys_map_append_group, hkeys, List.map_append, List.mem_append, List.map_cons,
            List.map_nil, List.mem_singleton]
          exact ⟨Or.inl, fun h => h.elim id fun h => h ▸ hmem⟩
        intro s
        rw [lookup_map_append_group, hlookup, hsent]
        by_cases hs : s = tx.sender
        · subst hs
          simp only [↓reduceIte, hmem, Option.map_some', List.map_append, List.mem_append, true_or]
        · simp only [hs, Ne.symm hs, ↓reduceIte, List.append_nil, List.map_append, List.mem_append,
            List.map_cons, List.map_nil, List.mem_singleton, or_false]
      · rw [if_neg hmem]
        rw [hkeys] at hmem
        refine ⟨?_, fun s => by simp only [List.map_append, List.mem_append, hkeys, List.map_cons, List.map_nil],
          fun s => ?_⟩
        · rw [List.map_append, List.nodup_append]
          exact ⟨hnodup, List.nodup_singleton _, fun x hx hy => by
            rw [List.mem_singleton.mp hy, hkeys] at hx
            exact hmem hx⟩
        · rw [List.lookup_append, hlookup, hsent]
          by_cases hs : s = tx.sender
          · subst hs
            have hnil : sentBy txs tx.sender = [] :=
              sentBy_eq_nil.mpr fun u hu h => hmem (h ▸ List.mem_map_of_mem _ hu)
            simp only [hmem, hnil, ↓reduceIte, lookup_cons_ite, List.lookup_nil, Option.none_or,
              List.map_append, List.mem_append, List.map_cons, List.map_nil, List.mem_singleton, or_true,
              List.nil_append]
          · simp only [hs, Ne.symm hs, ↓reduceIte, lookup_cons_ite, List.lookup_nil, Option.or_none,
              List.append_nil, List.map_append, List.mem_append, List.map_cons, List.map_nil,
              List.mem_singleton, or_false]

/-- A sender's entry in the map, read with a default: its transactions in the
event, in arrival order. -/
theorem groupBySender_getD (txs : List Transaction) (s : Address) :
    ((groupBySender txs).lookup s).getD [] = sentBy txs s := by
  rw [(groupBySender_lookup txs).2.2]
  split_ifs with h
  · rfl
  · exact (sentBy_eq_nil.mpr fun u hu hs => h (by rw [← hs]; exact List.mem_map_of_mem _ hu)).symm

/-- An iteration counts in `tcount` the transaction it appends, if any. -/
theorem commitTransactionsStep_tcount {b : Backend σ ι} {env env' : Environment σ} {txs : ι}
    {load : Option CommitInterrupt}
    (hstep : (∃ txs', commitTransactionsStep b env txs load = .next env' txs') ∨
      commitTransactionsStep b env txs load = .exit env') :
    env'.tcount + env.txs.length = env.tcount + env'.txs.length := by
  rcases commitTransactionsStep_env hstep with rfl | ⟨tx, res, env₁, heq, hres⟩
  · rfl
  obtain ⟨htcount, ⟨err, rfl, htxs, -⟩ | ⟨receipt, rfl, -, htxs, -⟩⟩ := commitTransaction_cases heq
  · obtain ⟨rfl, -⟩ | ⟨logs, hlogs, -⟩ := hres
    · rw [htcount, htxs]
    · cases hlogs
  · obtain ⟨-, hne⟩ | ⟨logs, -, rfl⟩ := hres
    · exact absurd rfl (hne _)
    · simp only [htcount, htxs, List.length_append, List.length_singleton]
      omega

/-- A relation between environments that every iteration of the loop
establishes, that the gas-pool allocation keeps and that composes, holds between
the environment a batch starts from and the one it ends with. -/
theorem commitTransactions_rel {b : Backend σ ι} (R : Environment σ → Environment σ → Prop)
    (hrefl : ∀ env, R env env) (htrans : ∀ e₁ e₂ e₃, R e₁ e₂ → R e₂ e₃ → R e₁ e₃)
    (hinit : ∀ env : Environment σ, R env { env with gasPool := some env.header.gasLimit })
    (hstep : ∀ env txs load env', ((∃ txs', commitTransactionsStep b env txs load = .next env' txs') ∨
      commitTransactionsStep b env txs load = .exit env') → R env env')
    (env : Environment σ) (txs : ι) (interrupt : Option (Nat → CommitInterrupt)) :
    R env (commitTransactions b env txs interrupt).env := by
  have hloop : ∀ env txs k, R env (commitTransactionsLoop b interrupt env txs k).env := by
    intro env txs k
    induction env, txs, k using commitTransactionsLoop.induct b interrupt with
    | case1 env txs k env' txs' hnext ih =>
        rw [commitTransactionsLoop_next hnext]
        exact htrans _ _ _ (hstep _ _ _ _ (.inl ⟨_, hnext⟩)) ih
    | case2 env txs k env' hexit =>
        rw [commitTransactionsLoop_exit hexit]
        exact hstep _ _ _ _ (.inr hexit)
    | case3 env txs k adjust result habort =>
        rw [commitTransactionsLoop_abort habort]
        exact hrefl env
  unfold commitTransactions
  split
  · exact htrans _ _ _ (hinit env) (hloop _ _ _)
  · exact hloop _ _ _

/-- A batch counts in `tcount` exactly the transactions it appends. -/
theorem commitTransactions_tcount (b : Backend σ ι) (env : Environment σ) (txs : ι)
    (interrupt : Option (Nat → CommitInterrupt)) :
    (commitTransactions b env txs interrupt).env.tcount + env.txs.length =
      env.tcount + (commitTransactions b env txs interrupt).env.txs.length :=
  commitTransactions_rel (fun e e' => e'.tcount + e.txs.length = e.tcount + e'.txs.length)
    (fun _ => rfl) (fun _ _ _ h₁ h₂ => by omega) (fun _ => rfl)
    (fun _ _ _ _ h => commitTransactionsStep_tcount h) env txs interrupt

variable {b : Backend σ ι} {rem : ι → Address → List Transaction}

/-- `mainLoop`'s `txsCh` case on a stopped worker that holds `w.current` with
room for a transaction, for every iterator that keeps the price-and-nonce
contract: it appends to `w.current`, for every sender, a subsequence of that
sender's transactions in the event, in arrival order, and it republishes the
snapshot exactly when it appended something. -/
theorem txsEvent_order (hiter : ByPriceAndNonce b rem) (s : Sys σ ι) (txs : List Transaction)
    {current : Environment σ} (hrunning : s.worker.running = false)
    (hcur : s.worker.current = some current)
    (hroom : ¬ current.gasPool.any fun gp => decide (gp < b.txGas)) :
    ∃ env appended, (s.txsEvent b txs).worker.current = some env ∧
      env.txs = current.txs ++ appended ∧
      (∀ sender, (sentBy appended sender).Sublist (sentBy txs sender)) ∧
      (s.txsEvent b txs).worker.snapshot =
        if appended = [] then s.worker.snapshot else some (updateSnapshot env) := by
  obtain ⟨appended, happ, hsub⟩ := commitTransactions_sublist hiter current
    (b.newTransactionsByPriceAndNonce current.signer (groupBySender txs) current.header.baseFee) none
  have hcount := commitTransactions_tcount b current
    (b.newTransactionsByPriceAndNonce current.signer (groupBySender txs) current.header.baseFee) none
  set r := commitTransactions b current
    (b.newTransactionsByPriceAndNonce current.signer (groupBySender txs) current.header.baseFee) none
  have hmoved : current.tcount ≠ r.env.tcount ↔ appended ≠ [] := by
    rw [happ, List.length_append] at hcount
    rw [Ne, Ne, ← List.length_eq_zero]
    omega
  have hevent : s.txsEvent b txs =
      (if current.tcount ≠ r.env.tcount
        then ({ s with worker := { s.worker with current := some r.env } } : Sys σ ι).withSnapshot r.env
        else { s with worker := { s.worker with current := some r.env } }).resume (some txs.length) := by
    simp only [Sys.txsEvent, hrunning, hcur, if_neg hroom]
  refine ⟨r.env, appended, ?_, happ, fun sender => ?_, ?_⟩
  · rw [hevent]
    split_ifs <;> rfl
  · have := (hsub sender).trans (hiter.new_sublist current.signer _ current.header.baseFee sender)
    rwa [groupBySender_getD] at this
  · rw [hevent]
    by_cases happended : appended = []
    · rw [if_neg (by rwa [hmoved, not_not]), if_pos happended]
      rfl
    · rw [if_pos (hmoved.mpr happended), if_neg happended]
      rfl

/-- A first round on a stopped worker, with an empty pool, installs `w.current`. -/
def idleSchedule : List Action := [.chainHead sampleHead, .newWorkChainHead, .mainNewWork]

/-- Three arrivals from two senders, sender 2's first. -/
def sampleArrivals : List Transaction :=
  [{ hash := 1, sender := 2, nonce := 0, replayProtected := false },
   { hash := 2, sender := 1, nonce := 0, replayProtected := false },
   { hash := 3, sender := 2, nonce := 1, replayProtected := false }]

/-- `txsEvent_order` on the worker `idleSchedule` leaves, with the per-sender
queues of `accountBackend`. -/
theorem txsEvent_order_idle :
    ∃ s current, (Sys.init accountBackend false).run accountBackend idleSchedule = some s ∧
      s.worker.running = false ∧ s.worker.current = some current ∧
      ¬ (current.gasPool.any fun gp => decide (gp < accountBackend.txGas)) ∧
      ∃ env appended, (s.txsEvent accountBackend sampleArrivals).worker.current = some env ∧
        env.txs = current.txs ++ appended ∧
        (∀ sender, (sentBy appended sender).Sublist (sentBy sampleArrivals sender)) ∧
        (s.txsEvent accountBackend sampleArrivals).worker.snapshot =
          if appended = [] then s.worker.snapshot else some (updateSnapshot env) := by
  obtain ⟨s, current, hrun, hrunning, hcur, hroom⟩ : ∃ s current,
      (Sys.init accountBackend false).run accountBackend idleSchedule = some s ∧
        s.worker.running = false ∧ s.worker.current = some current ∧
        ¬ (current.gasPool.any fun gp => decide (gp < accountBackend.txGas)) :=
    ⟨_, _, rfl, rfl, rfl, by decide⟩
  exact ⟨s, current, hrun, hrunning, hcur, hroom,
    txsEvent_order accountBackend_byPriceAndNonce s sampleArrivals hrunning hcur hroom⟩

end Arrivals

end QuaiWorker
