import QuaiWorker.Transactions

/-!
# The batch loop: termination and transaction order

`commitTransactions` walks a `types.TransactionsByPriceAndNonce` iterator.
Every iteration that goes on calls `Pop` or `Shift` once and both remove a
transaction, so a batch makes at most one iteration more than its iterator
holds transactions (`commitTransactions_loads_le`).

**The iterator's contract.**  The iterator is not part of `src/`.  What the
worker relies on is its documented behaviour: `Peek` yields the head of some
sender's remaining transactions (which sender is the iterator's choice, by
price), `Shift` moves that sender on to its next transaction, and `Pop` drops
the sender.  `ByPriceAndNonce b rem` states this for a view `rem it s` of what
iterator `it` has left for sender `s`, a new iterator holding, for each sender,
a subsequence of the list it was built from.

**Order.**  Under the contract one loop appends, for every sender, a
subsequence of what its iterator had left for that sender
(`commitTransactionsLoop_sublist`).  A popped sender has nothing left, so
nothing of it follows in the batch; and `splitPending` gives every local
sender's list to the first batch and none of it to the second.

**Results.**
* `commitTransactions_loads_le`: every iteration that goes on shifts or pops
  and shrinks the iterator, and a batch makes at most `size + 1` iterations.
* `fillTransactions_order`: the transactions one `fillTransactions` call
  appends come from `pending`, local senders' before remote senders', each
  sender's in the order of its pending list, and none of a sender after it
  was popped.
-/

namespace QuaiWorker

section Batch

variable {σ ι : Type}

/-- The contract of `types.TransactionsByPriceAndNonce`, for a view `rem it s`
of the transactions iterator `it` has left for sender `s`. -/
structure ByPriceAndNonce (b : Backend σ ι) (rem : ι → Address → List Transaction) : Prop where
  /-- A new iterator holds, for each sender, a subsequence of its list. -/
  new_sublist : ∀ signer txs baseFee s,
    (rem (b.newTransactionsByPriceAndNonce signer txs baseFee) s).Sublist ((txs.lookup s).getD [])
  /-- `Peek` yields the head of its sender's remaining transactions, and
  `Shift` moves that sender on to the next one. -/
  peek_shift : ∀ it tx, b.iter.peek it = some tx →
    rem it tx.sender = tx :: rem (b.iter.shift it) tx.sender
  /-- `Shift` leaves the other senders alone. -/
  shift_other : ∀ it tx s, b.iter.peek it = some tx → s ≠ tx.sender →
    rem (b.iter.shift it) s = rem it s
  /-- `Pop` drops the peeked sender. -/
  pop_self : ∀ it tx, b.iter.peek it = some tx → rem (b.iter.pop it) tx.sender = []
  /-- `Pop` leaves the other senders alone. -/
  pop_other : ∀ it tx s, b.iter.peek it = some tx → s ≠ tx.sender →
    rem (b.iter.pop it) s = rem it s

/-- The transactions of `txs` sent by `s`, in order. -/
def sentBy (txs : List Transaction) (s : Address) : List Transaction :=
  txs.filter fun tx => tx.sender = s

@[simp] theorem sentBy_nil (s : Address) : sentBy [] s = [] := rfl

@[simp] theorem sentBy_append (txs txs' : List Transaction) (s : Address) :
    sentBy (txs ++ txs') s = sentBy txs s ++ sentBy txs' s := by
  simp [sentBy]

theorem mem_sentBy_sender {txs : List Transaction} {tx : Transaction} (h : tx ∈ txs) :
    tx ∈ sentBy txs tx.sender := by
  simp [sentBy, h]

theorem sentBy_eq_nil {txs : List Transaction} {s : Address} :
    sentBy txs s = [] ↔ ∀ tx ∈ txs, tx.sender ≠ s := by
  simp [sentBy, List.filter_eq_nil_iff]

/-- What an iteration that goes on does to `txs`: it appends nothing when it
pops, and at most the peeked transaction when it shifts. -/
theorem commitTransactionsStep_txs {b : Backend σ ι} {env env' : Environment σ} {txs txs' : ι}
    {load : Option CommitInterrupt} (h : commitTransactionsStep b env txs load = .next env' txs') :
    ∃ tx new, b.iter.peek txs = some tx ∧ env'.txs = env.txs ++ new ∧
      ((txs' = b.iter.pop txs ∧ new = []) ∨ (txs' = b.iter.shift txs ∧ new.Sublist [tx])) := by
  unfold commitTransactionsStep at h
  split at h
  · cases h
  · cases h
  · split at h
    · cases h
    · split at h
      · cases h
      · rename_i tx hpeek
        split at h
        · cases h
          exact ⟨tx, [], hpeek, by simp, .inl ⟨rfl, rfl⟩⟩
        · dsimp only at h
          generalize hc : commitTransaction b
            { env with state := env.state.prepare tx.hash env.tcount } (some tx) = r at h
          obtain ⟨res, env₁⟩ := r
          obtain ⟨-, ⟨err, rfl, htxs, -⟩ | ⟨receipt, rfl, -, htxs, -⟩⟩ := commitTransaction_cases hc
          · have hkeep : env₁.txs = env.txs ++ [] := by simpa using htxs
            cases err <;> cases h
            all_goals first
              | exact ⟨tx, [], hpeek, hkeep, .inl ⟨rfl, rfl⟩⟩
              | exact ⟨tx, [], hpeek, hkeep, .inr ⟨rfl, List.nil_sublist _⟩⟩
          · cases h
            exact ⟨tx, [tx], hpeek, htxs, .inr ⟨rfl, List.Sublist.refl _⟩⟩

/-- An iteration that stops hands back the environment it was given. -/
theorem commitTransactionsStep_exit {b : Backend σ ι} {env env' : Environment σ} {txs : ι}
    {load : Option CommitInterrupt} (h : commitTransactionsStep b env txs load = .exit env') :
    env' = env := by
  unfold commitTransactionsStep at h
  split at h
  · cases h
  · cases h
  · split at h
    · cases h
      rfl
    · split at h
      · cases h
        rfl
      · split at h
        · cases h
        · dsimp only at h
          split at h <;> cases h

/-- The loop from iteration `k` on makes at most one iteration more than the
iterator holds transactions. -/
theorem commitTransactionsLoop_loads_le (b : Backend σ ι)
    (interrupt : Option (Nat → CommitInterrupt)) (env : Environment σ) (txs : ι) (k : Nat) :
    (commitTransactionsLoop b interrupt env txs k).loads ≤ k + b.iter.size txs + 1 := by
  induction env, txs, k using commitTransactionsLoop.induct b interrupt with
  | case1 env txs k env' txs' hstep ih =>
      rw [commitTransactionsLoop_next hstep]
      have := commitTransactionsStep_size hstep
      omega
  | case2 env txs k env' hstep =>
      rw [commitTransactionsLoop_exit hstep]
      dsimp only
      omega
  | case3 env txs k adjust result hstep =>
      rw [commitTransactionsLoop_abort hstep]
      dsimp only
      omega

/-- `commitTransactions` terminates for every iterator, every `ApplyTransaction`
and every sequence of interrupt loads: each iteration that goes on calls one of
`Pop` and `Shift` on the peeked iterator and leaves fewer transactions, and a
batch makes at most one iteration more than its iterator holds. -/
theorem commitTransactions_loads_le (b : Backend σ ι) :
    (∀ env txs load env' txs', commitTransactionsStep b env txs load = .next env' txs' →
      ∃ tx, b.iter.peek txs = some tx ∧ (txs' = b.iter.pop txs ∨ txs' = b.iter.shift txs) ∧
        b.iter.size txs' < b.iter.size txs) ∧
    ∀ env txs interrupt, (commitTransactions b env txs interrupt).loads ≤ b.iter.size txs + 1 := by
  refine ⟨fun env txs load env' txs' h => ?_, fun env txs interrupt => ?_⟩
  · obtain ⟨tx, hpeek, hop⟩ := commitTransactionsStep_next h
    exact ⟨tx, hpeek, hop, commitTransactionsStep_size h⟩
  · simpa using commitTransactionsLoop_loads_le b interrupt _ txs 0

section Order

variable {b : Backend σ ι} {rem : ι → Address → List Transaction}

/-- A loop appends, for every sender, a subsequence of what its iterator has
left for that sender. -/
theorem commitTransactionsLoop_sublist (hiter : ByPriceAndNonce b rem)
    (interrupt : Option (Nat → CommitInterrupt)) (env : Environment σ) (txs : ι) (k : Nat) :
    ∃ appended, (commitTransactionsLoop b interrupt env txs k).env.txs = env.txs ++ appended ∧
      ∀ s, (sentBy appended s).Sublist (rem txs s) := by
  induction env, txs, k using commitTransactionsLoop.induct b interrupt with
  | case1 env txs k env' txs' hstep ih =>
      obtain ⟨appended, happ, hsub⟩ := ih
      obtain ⟨tx, new, hpeek, hnew, hop⟩ := commitTransactionsStep_txs hstep
      refine ⟨new ++ appended, by rw [commitTransactionsLoop_next hstep, happ, hnew,
        List.append_assoc], fun s => ?_⟩
      rw [sentBy_append]
      rcases hop with ⟨rfl, rfl⟩ | ⟨rfl, hsingle⟩
      · by_cases hs : s = tx.sender
        · subst hs
          have hnil := hsub tx.sender
          rw [hiter.pop_self _ _ hpeek, List.sublist_nil] at hnil
          simp [hnil]
        · simpa [hiter.pop_other _ _ _ hpeek hs] using hsub s
      · have hnew_sub : (sentBy new s).Sublist (sentBy [tx] s) := hsingle.filter _
        by_cases hs : s = tx.sender
        · subst hs
          rw [hiter.peek_shift _ _ hpeek]
          exact (hnew_sub.trans (List.filter_sublist _)).append (hsub _)
        · have hnil : sentBy [tx] s = [] := sentBy_eq_nil.mpr (by simpa [eq_comm] using hs)
          rw [hnil, List.sublist_nil] at hnew_sub
          simpa [hnew_sub, hiter.shift_other _ _ _ hpeek hs] using hsub s
  | case2 env txs k env' hstep =>
      rw [commitTransactionsLoop_exit hstep, commitTransactionsStep_exit hstep]
      exact ⟨[], by simp, fun s => by simp⟩
  | case3 env txs k adjust result hstep =>
      rw [commitTransactionsLoop_abort hstep]
      exact ⟨[], by simp, fun s => by simp⟩

/-- A batch appends, for every sender, a subsequence of what its iterator holds
for that sender. -/
theorem commitTransactions_sublist (hiter : ByPriceAndNonce b rem) (env : Environment σ)
    (txs : ι) (interrupt : Option (Nat → CommitInterrupt)) :
    ∃ appended, (commitTransactions b env txs interrupt).env.txs = env.txs ++ appended ∧
      ∀ s, (sentBy appended s).Sublist (rem txs s) := by
  obtain ⟨appended, happ, hsub⟩ := commitTransactionsLoop_sublist hiter interrupt
    (if env.gasPool = none then { env with gasPool := some env.header.gasLimit } else env) txs 0
  refine ⟨appended, ?_, hsub⟩
  rw [commitTransactions, happ]
  split <;> rfl

/-- The remote batch appends, for every sender, a subsequence of its list. -/
theorem fillRemotes_sublist (hiter : ByPriceAndNonce b rem)
    (remoteTxs : List (Address × List Transaction)) (interrupt : Option (Nat → CommitInterrupt))
    (r : BatchResult σ) :
    ∃ appended, (fillRemotes b remoteTxs interrupt r).env.txs = r.env.txs ++ appended ∧
      ∀ s, (sentBy appended s).Sublist ((remoteTxs.lookup s).getD []) := by
  unfold fillRemotes
  split
  · exact ⟨[], by simp, fun s => by simp⟩
  · obtain ⟨appended, happ, hsub⟩ := commitTransactions_sublist hiter r.env
      (b.newTransactionsByPriceAndNonce r.env.signer remoteTxs r.env.header.baseFee)
      (interrupt.map fun loads n => loads (r.loads + n))
    exact ⟨appended, happ, fun s => (hsub s).trans (hiter.new_sublist _ _ _ s)⟩

/-- `fillTransactions` appends a local batch and then a remote one, each giving
every sender a subsequence of its list in the split. -/
theorem fillTransactions_batches (hiter : ByPriceAndNonce b rem)
    (pending : List (Address × List Transaction)) (locals : List Address)
    (interrupt : Option (Nat → CommitInterrupt)) (env : Environment σ) :
    ∃ localTxs remoteTxs,
      (fillTransactions b (.ok pending) locals interrupt env).env.txs =
        env.txs ++ (localTxs ++ remoteTxs) ∧
      (∀ s, (sentBy localTxs s).Sublist
        ((((splitPending pending locals).1).lookup s).getD [])) ∧
      ∀ s, (sentBy remoteTxs s).Sublist ((((splitPending pending locals).2).lookup s).getD []) := by
  unfold fillTransactions
  dsimp only
  split
  · obtain ⟨remoteTxs, happ, hsub⟩ := fillRemotes_sublist hiter (splitPending pending locals).2
      interrupt { env, sent := [], result := false, loads := 0 }
    exact ⟨[], remoteTxs, by simpa using happ, fun s => by simp, hsub⟩
  · obtain ⟨localTxs, hloc, hsubloc⟩ := commitTransactions_sublist hiter env
      (b.newTransactionsByPriceAndNonce env.signer (splitPending pending locals).1
        env.header.baseFee) interrupt
    have hsubloc' := fun s => (hsubloc s).trans (hiter.new_sublist _ _ _ s)
    split
    · exact ⟨localTxs, [], by simpa using hloc, hsubloc', fun s => by simp⟩
    · obtain ⟨remoteTxs, hrem, hsubrem⟩ := fillRemotes_sublist hiter
        (splitPending pending locals).2 interrupt _
      exact ⟨localTxs, remoteTxs, by rw [hrem, hloc, List.append_assoc], hsubloc', hsubrem⟩

/-- After an iteration pops the peeked transaction's sender, the rest of the
batch appends nothing of that sender. -/
theorem commitTransactionsLoop_after_pop (hiter : ByPriceAndNonce b rem)
    {interrupt : Option (Nat → CommitInterrupt)} {env env' : Environment σ} {it : ι} {k : Nat}
    {tx : Transaction} (hpeek : b.iter.peek it = some tx)
    (hstep : commitTransactionsStep b env it (interrupt.map (· k)) = .next env' (b.iter.pop it)) :
    ∃ later, (commitTransactionsLoop b interrupt env it k).env.txs = env'.txs ++ later ∧
      ∀ u ∈ later, u.sender ≠ tx.sender := by
  obtain ⟨later, hlater, hsub⟩ := commitTransactionsLoop_sublist hiter interrupt env' _ (k + 1)
  have hnil := hsub tx.sender
  rw [hiter.pop_self _ _ hpeek, List.sublist_nil, sentBy_eq_nil] at hnil
  exact ⟨later, by rw [commitTransactionsLoop_next hstep, hlater], hnil⟩

end Order

section Split

/-- `lookup` on a cons cell, as a conditional. -/
theorem lookup_cons_ite (k s : Address) (v : List Transaction) (l : List (Address × List Transaction)) :
    ((k, v) :: l).lookup s = if s = k then some v else l.lookup s := by
  rw [List.lookup_cons]
  by_cases h : s = k
  · simp [h]
  · rw [beq_false_of_ne h, if_neg h]

/-- Looking up a key in a list with one key filtered out. -/
theorem lookup_filter_key_ne (l : List (Address × List Transaction)) (a s : Address) :
    (l.filter fun entry => entry.1 != a).lookup s = if s = a then none else l.lookup s := by
  induction l with
  | nil => split <;> rfl
  | cons e l ih =>
      obtain ⟨k, v⟩ := e
      by_cases hk : k = a
      · subst hk
        rw [List.filter_cons_of_neg (by simp), ih, lookup_cons_ite]
        split_ifs <;> rfl
      · rw [List.filter_cons_of_pos (by simpa using hk)]
        simp only [lookup_cons_ite, ih]
        clear ih
        split_ifs <;> simp_all

/-- One more local sender in `splitPending`: the fold's last step. -/
theorem splitPending_append (pending : List (Address × List Transaction)) (locals : List Address)
    (a : Address) :
    splitPending pending (locals ++ [a]) =
      if (((splitPending pending locals).2.lookup a).getD []).isEmpty then splitPending pending locals
      else ((splitPending pending locals).1 ++ [(a, ((splitPending pending locals).2.lookup a).getD [])],
        (splitPending pending locals).2.filter fun entry => entry.1 != a) := by
  simp only [splitPending, List.foldl_append, List.foldl_cons, List.foldl_nil]

/-- What `splitPending` does with each sender: both halves hold a subsequence
of its pending list (all of it, in fact, or nothing), a local sender has nothing
left among the remote ones, and a sender that is not local has no local
entry. -/
theorem splitPending_lookup (pending : List (Address × List Transaction)) (locals : List Address)
    (s : Address) :
    (((splitPending pending locals).1.lookup s).getD []).Sublist ((pending.lookup s).getD []) ∧
    (((splitPending pending locals).2.lookup s).getD []).Sublist ((pending.lookup s).getD []) ∧
    (s ∈ locals → ((splitPending pending locals).2.lookup s).getD [] = []) ∧
    (s ∉ locals → (splitPending pending locals).1.lookup s = none) := by
  induction locals using List.reverseRecOn generalizing s with
  | nil => simp [splitPending]
  | append_singleton locals a ih =>
      have iha := ih a
      obtain ⟨h1, h2, h3, h4⟩ := ih s
      rw [splitPending_append]
      generalize splitPending pending locals = acc at iha h1 h2 h3 h4 ⊢
      obtain ⟨L, R⟩ := acc
      dsimp only at iha h1 h2 h3 h4 ⊢
      split_ifs with hempty
      · refine ⟨h1, h2, fun hs => ?_, fun hs => h4 fun h => hs (List.mem_append_left _ h)⟩
        rcases List.mem_append.mp hs with hs | hs
        · exact h3 hs
        · rw [List.mem_singleton.mp hs]
          simpa using hempty
      · refine ⟨?_, ?_, fun hs => ?_, fun hs => ?_⟩
        · rw [List.lookup_append]
          cases hL : L.lookup s with
          | some v => simpa [hL] using h1
          | none =>
              by_cases hs : s = a
              · subst hs
                simpa [lookup_cons_ite] using iha.2.1
              · simp [lookup_cons_ite, hs]
        · rw [lookup_filter_key_ne]
          split_ifs
          · exact List.nil_sublist _
          · exact h2
        · rw [lookup_filter_key_ne]
          split_ifs with has
          · rfl
          · exact h3 (by simpa [has] using hs)
        · have hsa : s ≠ a := fun h => hs (by simp [h])
          rw [List.lookup_append, h4 fun h => hs (List.mem_append_left _ h)]
          simp [lookup_cons_ite, hsa]

end Split

/-- The transactions in per-sender queues. -/
def queuesSize : List (Address × List Transaction) → Nat
  | [] => 0
  | entry :: queues => entry.2.length + queuesSize queues

/-- The size of two runs of queues. -/
@[simp] theorem queuesSize_append (queues queues' : List (Address × List Transaction)) :
    queuesSize (queues ++ queues') = queuesSize queues + queuesSize queues' := by
  induction queues with
  | nil => simp [queuesSize]
  | cons entry queues ih => rw [List.cons_append, queuesSize, queuesSize, ih]; omega

/-- Dropping queues does not add transactions. -/
theorem queuesSize_filter_le (queues : List (Address × List Transaction))
    (p : Address × List Transaction → Bool) :
    queuesSize (queues.filter p) ≤ queuesSize queues := by
  induction queues with
  | nil => rfl
  | cons entry queues ih =>
      rw [List.filter_cons]
      split <;> simp only [queuesSize] <;> omega

/-- Per-sender queues served in turn: `Peek` is the head of the first queue when
its sender sent it, `Shift` moves that sender behind the others, and `Pop`
drops it. -/
def accountIterator : TxIterator (List (Address × List Transaction)) where
  peek
    | (s, tx :: _) :: _ => if tx.sender = s then some tx else none
    | _ => none
  shift
    | (s, _ :: txs) :: rest =>
        rest.filter (fun entry => entry.1 != s) ++ (if txs = [] then [] else [(s, txs)])
    | queues => queues
  pop
    | (s, _) :: rest => rest.filter fun entry => entry.1 != s
    | [] => []
  size := queuesSize
  shift_lt := by
    rintro (_ | ⟨⟨s, _ | ⟨tx, txs⟩⟩, rest⟩) h
    · simp at h
    · simp at h
    · have := queuesSize_filter_le rest fun entry => entry.1 != s
      dsimp only
      split_ifs <;> simp only [queuesSize_append, queuesSize, List.length_cons] <;> omega
  pop_lt := by
    rintro (_ | ⟨⟨s, _ | ⟨tx, txs⟩⟩, rest⟩) h
    · simp at h
    · simp at h
    · have := queuesSize_filter_le rest fun entry => entry.1 != s
      dsimp only [queuesSize]
      simp only [List.length_cons]
      omega

/-- `basicBackend` with per-sender queues as its price and nonce iterator. -/
def accountBackend : Backend Unit (List (Address × List Transaction)) :=
  { basicBackend with
    iter := accountIterator
    newTransactionsByPriceAndNonce := fun _ txs _ => txs }

/-- What per-sender queues have left for a sender. -/
def accountRem (queues : List (Address × List Transaction)) (s : Address) : List Transaction :=
  (queues.lookup s).getD []

@[simp] theorem accountBackend_iter : accountBackend.iter = accountIterator := rfl

theorem accountIterator_shift (s : Address) (tx : Transaction) (txs : List Transaction)
    (rest : List (Address × List Transaction)) :
    accountIterator.shift ((s, tx :: txs) :: rest) =
      rest.filter (fun entry => entry.1 != s) ++ (if txs = [] then [] else [(s, txs)]) := rfl

theorem accountIterator_pop (s : Address) (txs : List Transaction)
    (rest : List (Address × List Transaction)) :
    accountIterator.pop ((s, txs) :: rest) = rest.filter fun entry => entry.1 != s := rfl

/-- `Peek` on per-sender queues yields the head of the first queue, whose
sender is its key. -/
theorem accountIterator_peek {queues : List (Address × List Transaction)} {tx : Transaction}
    (h : accountIterator.peek queues = some tx) :
    ∃ txs rest, queues = (tx.sender, tx :: txs) :: rest := by
  rcases queues with _ | ⟨⟨s, _ | ⟨tx', txs⟩⟩, rest⟩
  · exact Option.noConfusion h
  · exact Option.noConfusion h
  · change (if tx'.sender = s then some tx' else none) = some tx at h
    split_ifs at h with hs
    cases h
    exact ⟨txs, rest, by rw [hs]⟩

/-- Per-sender queues served in turn keep the price and nonce contract. -/
theorem accountBackend_byPriceAndNonce : ByPriceAndNonce accountBackend accountRem where
  new_sublist _ _ _ _ := List.Sublist.refl _
  peek_shift it tx h := by
    obtain ⟨txs, rest, rfl⟩ := accountIterator_peek h
    rw [accountBackend_iter, accountIterator_shift]
    unfold accountRem
    rw [lookup_cons_ite, if_pos rfl, List.lookup_append, lookup_filter_key_ne, if_pos rfl]
    split_ifs with htxs
    · simp [htxs]
    · simp [lookup_cons_ite]
  shift_other it tx s h hs := by
    obtain ⟨txs, rest, rfl⟩ := accountIterator_peek h
    rw [accountBackend_iter, accountIterator_shift]
    unfold accountRem
    rw [lookup_cons_ite, if_neg hs, List.lookup_append, lookup_filter_key_ne, if_neg hs]
    split_ifs <;> simp [lookup_cons_ite, hs]
  pop_self it tx h := by
    obtain ⟨txs, rest, rfl⟩ := accountIterator_peek h
    rw [accountBackend_iter, accountIterator_pop]
    simp [accountRem, lookup_filter_key_ne]
  pop_other it tx s h hs := by
    obtain ⟨txs, rest, rfl⟩ := accountIterator_peek h
    rw [accountBackend_iter, accountIterator_pop]
    simp [accountRem, lookup_filter_key_ne, lookup_cons_ite, hs]

/-- A pool with one transaction of sender 1 and two of sender 2. -/
def samplePending : List (Address × List Transaction) :=
  [(1, [{ hash := 11, sender := 1, nonce := 0, replayProtected := false }]),
   (2, [{ hash := 21, sender := 2, nonce := 0, replayProtected := false },
        { hash := 22, sender := 2, nonce := 1, replayProtected := false }])]

section Fill

variable {b : Backend σ ι} {rem : ι → Address → List Transaction}

/-- The order of the transactions one `fillTransactions` call appends, for every
pending map, every `Locals()`, every `ApplyTransaction`, every interrupt and
every iterator that keeps the price and nonce contract: they come from
`pending`; the local senders' come before the remote senders'; each sender's
are a subsequence of its pending list; and within a batch, once an iteration
has popped a sender, nothing of that sender is appended after it. -/
theorem fillTransactions_order (hiter : ByPriceAndNonce b rem)
    (pending : List (Address × List Transaction)) (locals : List Address)
    (interrupt : Option (Nat → CommitInterrupt)) (env : Environment σ) :
    (∃ appended, (fillTransactions b (.ok pending) locals interrupt env).env.txs =
        env.txs ++ appended ∧
      (∀ tx ∈ appended, ∃ entry ∈ pending, tx ∈ entry.2) ∧
      (∃ localTxs remoteTxs, appended = localTxs ++ remoteTxs ∧
        (∀ tx ∈ localTxs, tx.sender ∈ locals) ∧ ∀ tx ∈ remoteTxs, tx.sender ∉ locals) ∧
      ∀ s, (sentBy appended s).Sublist ((pending.lookup s).getD [])) ∧
    ∀ (batchInterrupt : Option (Nat → CommitInterrupt)) (batchEnv env' : Environment σ) (it : ι)
      (k : Nat) (tx : Transaction), b.iter.peek it = some tx →
      commitTransactionsStep b batchEnv it (batchInterrupt.map (· k)) = .next env' (b.iter.pop it) →
      ∃ later, (commitTransactionsLoop b batchInterrupt batchEnv it k).env.txs = env'.txs ++ later ∧
        ∀ u ∈ later, u.sender ≠ tx.sender := by
  refine ⟨?_, fun _ _ _ _ _ _ hpeek hstep => commitTransactionsLoop_after_pop hiter hpeek hstep⟩
  obtain ⟨localTxs, remoteTxs, htxs, hloc, hrem⟩ :=
    fillTransactions_batches hiter pending locals interrupt env
  have hsplit := splitPending_lookup pending locals
  have hloc_nil : ∀ s, s ∉ locals → sentBy localTxs s = [] := fun s hs => by
    simpa [(hsplit s).2.2.2 hs] using hloc s
  have hrem_nil : ∀ s, s ∈ locals → sentBy remoteTxs s = [] := fun s hs => by
    simpa [(hsplit s).2.2.1 hs] using hrem s
  have horder : ∀ s, (sentBy (localTxs ++ remoteTxs) s).Sublist ((pending.lookup s).getD []) := by
    intro s
    rw [sentBy_append]
    by_cases hs : s ∈ locals
    · rw [hrem_nil s hs, List.append_nil]
      exact (hloc s).trans (hsplit s).1
    · rw [hloc_nil s hs, List.nil_append]
      exact (hrem s).trans (hsplit s).2.1
  refine ⟨localTxs ++ remoteTxs, htxs, fun tx htx => ?_,
    ⟨localTxs, remoteTxs, rfl, fun tx htx => ?_, fun tx htx hs => ?_⟩, horder⟩
  · have hmem := (horder tx.sender).subset (mem_sentBy_sender htx)
    cases hlookup : pending.lookup tx.sender with
    | none => simp [hlookup] at hmem
    | some txs =>
        obtain ⟨_, _, rfl, -⟩ := List.lookup_eq_some_iff.mp hlookup
        exact ⟨(tx.sender, txs), by simp, by simpa [hlookup] using hmem⟩
  · by_contra hs
    exact sentBy_eq_nil.mp (hloc_nil _ hs) tx htx rfl
  · exact sentBy_eq_nil.mp (hrem_nil _ hs) tx htx rfl

/-- `fillTransactions_order` for per-sender queues served in turn, on a pool
with a local sender 2 and a remote sender 1: the round appends the local
sender's `21` and `22`, in nonce order, and then the remote sender's `11`. -/
theorem fillTransactions_order_two_senders :
    (fillTransactions accountBackend (.ok samplePending) [2] none sampleEnv).env.txs.map Transaction.hash =
        sampleEnv.txs.map Transaction.hash ++ [21, 22, 11] ∧
      ByPriceAndNonce accountBackend accountRem ∧
      (∃ appended, (fillTransactions accountBackend (.ok samplePending) [2] none sampleEnv).env.txs =
          sampleEnv.txs ++ appended ∧
        (∀ tx ∈ appended, ∃ entry ∈ samplePending, tx ∈ entry.2) ∧
        (∃ localTxs remoteTxs, appended = localTxs ++ remoteTxs ∧
          (∀ tx ∈ localTxs, tx.sender ∈ [2]) ∧ ∀ tx ∈ remoteTxs, tx.sender ∉ [2]) ∧
        ∀ s, (sentBy appended s).Sublist ((samplePending.lookup s).getD [])) ∧
      ∀ (batchInterrupt : Option (Nat → CommitInterrupt)) (batchEnv env' : Environment Unit)
        (it : List (Address × List Transaction)) (k : Nat) (tx : Transaction),
        accountBackend.iter.peek it = some tx →
        commitTransactionsStep accountBackend batchEnv it (batchInterrupt.map (· k)) =
          .next env' (accountBackend.iter.pop it) →
        ∃ later, (commitTransactionsLoop accountBackend batchInterrupt batchEnv it k).env.txs =
            env'.txs ++ later ∧ ∀ u ∈ later, u.sender ≠ tx.sender :=
  ⟨by with_unfolding_all decide, accountBackend_byPriceAndNonce,
    fillTransactions_order accountBackend_byPriceAndNonce samplePending [2] none sampleEnv⟩

end Fill

end Batch

end QuaiWorker
