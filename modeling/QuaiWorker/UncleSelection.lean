import QuaiWorker.PrepareWork
import Mathlib.Data.Finset.Card

/-!
# Uncle selection

`prepareWork` fills the fresh environment's uncle set from `localUncles` and
then from `remoteUncles`, trying each block with `commitUncle` in Go's map
order and stopping at two uncles.

**Why order does not matter.**  Of the four rules of `commitUncle`, three (not
a sibling, parent among the ancestors, not in the family) read only the header
and the ancestry, which the loop never changes; the fourth only skips a hash
already taken.  Whether a candidate is admissible against the fresh
environment is therefore decided once and for all, and each loop is greedy over
the set of admissible hashes: it takes hashes from it until it holds two.

**Counting.**  Hashes are counted as a `Finset`, so a block stored twice, or
two blocks with one hash, count once, as they do in the Go map.

**Results.**
* `commitUncles_length`: an uncle loop started with uncles of keys `K` ends
  with `min 2 |K ∪ A|` uncles, `A` the admissible hashes of its pool.
* `commitUncles_selection`: the two loops, run from no uncles, take admissible
  candidates only, distinct by hash, as many as fit up to two, and as many
  local ones as fit.
* `prepareWork_uncle_selection`: the same for the environment `prepareWork`
  builds, for every content and every order of the two pools.
-/

namespace QuaiWorker

section UncleSelection

variable {σ ι : Type}

instance (b : Backend σ ι) (env : Environment σ) (uncle : Header) :
    Decidable (UncleAdmissible b env uncle) :=
  inferInstanceAs (Decidable (_ ∧ _ ∧ _ ∧ _))

/-- The headers of a pool's blocks that `commitUncle` admits against `env`, in
map order. -/
def admissibleUncles (b : Backend σ ι) (env : Environment σ) (pool : List (Hash × Block)) :
    List Header :=
  (pool.map fun entry => entry.2.header).filter fun uncle => decide (UncleAdmissible b env uncle)

/-- The hashes of those headers. -/
def admissibleHashes (b : Backend σ ι) (env : Environment σ) (pool : List (Hash × Block)) :
    Finset Hash :=
  ((admissibleUncles b env pool).map b.hash).toFinset

variable (b : Backend σ ι)

@[simp] theorem admissibleHashes_nil (env : Environment σ) : admissibleHashes b env [] = ∅ := rfl

theorem admissibleUncles_cons (env : Environment σ) (hash : Hash) (block : Block)
    (pool : List (Hash × Block)) :
    admissibleUncles b env ((hash, block) :: pool) =
      if UncleAdmissible b env block.header then block.header :: admissibleUncles b env pool
      else admissibleUncles b env pool := by
  unfold admissibleUncles
  split_ifs with h <;> simp [h]

theorem admissibleHashes_cons (env : Environment σ) (hash : Hash) (block : Block)
    (pool : List (Hash × Block)) :
    admissibleHashes b env ((hash, block) :: pool) =
      if UncleAdmissible b env block.header then
        insert (b.hash block.header) (admissibleHashes b env pool)
      else admissibleHashes b env pool := by
  unfold admissibleHashes
  rw [admissibleUncles_cons]
  split_ifs <;> simp

/-- Admission against an environment holding uncles `U`: a hash not yet in `U`,
and the three rules that read only the header and the ancestry. -/
theorem uncleAdmissible_with_uncles (e : Environment σ) (U : List (Hash × Header))
    (uncle : Header) :
    UncleAdmissible b { e with uncles := U } uncle ↔
      b.hash uncle ∉ U.map Prod.fst ∧ UncleAdmissible b { e with uncles := [] } uncle :=
  ⟨fun h => ⟨h.1, List.not_mem_nil _, h.2⟩, fun h => ⟨h.1, h.2.2⟩⟩

/-- One iteration of an uncle loop, with `commitUncle` replaced by its rules. -/
theorem commitUncles_cons (env : Environment σ) (hash : Hash) (block : Block)
    (pool : List (Hash × Block)) :
    commitUncles b env ((hash, block) :: pool) =
      if env.uncles.length = 2 then env
      else if UncleAdmissible b env block.header then
        commitUncles b { env with uncles := env.uncles ++ [(b.hash block.header, block.header)] }
          pool
      else commitUncles b env pool := by
  rw [commitUncles]
  split_ifs with hfull hadm
  · rfl
  · rw [(commitUncle_ok_iff b env _ block.header).mpr ⟨hadm, rfl⟩]
  · cases h : commitUncle b env block.header with
    | ok env' => exact absurd ((commitUncle_ok_iff b env env' _).mp h).1 hadm
    | error _ => rfl

/-- Appending an entry under a new key keeps the keys distinct. -/
theorem keys_append_nodup {U : List (Hash × Header)} {hash : Hash} {uncle : Header}
    (hnodup : (U.map Prod.fst).Nodup) (hnew : hash ∉ U.map Prod.fst) :
    ((U ++ [(hash, uncle)]).map Prod.fst).Nodup := by
  rw [List.map_append, List.nodup_append]
  refine ⟨hnodup, List.nodup_singleton _, fun x hx hy => hnew ?_⟩
  rw [List.mem_singleton.mp hy] at hx
  exact hx

/-- An uncle loop only appends uncles, distinct by hash, each stored under its
hash and admissible against the environment without uncles. -/
theorem commitUncles_added (e : Environment σ) (pool : List (Hash × Block)) :
    ∀ U : List (Hash × Header), (U.map Prod.fst).Nodup →
      ∃ added, commitUncles b { e with uncles := U } pool = { e with uncles := U ++ added } ∧
        ((U ++ added).map Prod.fst).Nodup ∧
        ∀ entry ∈ added, entry.1 = b.hash entry.2 ∧
          entry.2 ∈ admissibleUncles b { e with uncles := [] } pool := by
  induction pool with
  | nil =>
      intro U hnodup
      exact ⟨[], by simp [commitUncles], by simpa using hnodup, by simp⟩
  | cons entry pool ih =>
      obtain ⟨hash, block⟩ := entry
      intro U hnodup
      have hsub : ∀ uncle ∈ admissibleUncles b { e with uncles := [] } pool,
          uncle ∈ admissibleUncles b { e with uncles := [] } ((hash, block) :: pool) := by
        intro uncle hmem
        rw [admissibleUncles_cons]
        split_ifs
        · exact List.mem_cons_of_mem _ hmem
        · exact hmem
      rw [commitUncles_cons]
      dsimp only
      split_ifs with hfull hadm
      · exact ⟨[], by simp, by simpa using hnodup, by simp⟩
      · obtain ⟨hnew, hfresh⟩ := (uncleAdmissible_with_uncles b e U _).mp hadm
        obtain ⟨added, heq, hnodup', hadded⟩ :=
          ih (U ++ [(b.hash block.header, block.header)]) (keys_append_nodup hnodup hnew)
        refine ⟨(b.hash block.header, block.header) :: added, by simpa using heq,
          by simpa using hnodup', fun entry hmem => ?_⟩
        rcases List.mem_cons.mp hmem with rfl | hmem
        · refine ⟨rfl, ?_⟩
          rw [admissibleUncles_cons, if_pos hfresh]
          exact List.mem_cons_self _ _
        · exact ⟨(hadded entry hmem).1, hsub _ (hadded entry hmem).2⟩
      · obtain ⟨added, heq, hnodup', hadded⟩ := ih U hnodup
        exact ⟨added, heq, hnodup', fun entry hmem =>
          ⟨(hadded entry hmem).1, hsub _ (hadded entry hmem).2⟩⟩

/-- An uncle loop started with uncles of distinct keys `K`, at most two, ends
with `min 2 |K ∪ A|` uncles, `A` being the admissible hashes of its pool: it is
greedy over `A`. -/
theorem commitUncles_length (e : Environment σ) (pool : List (Hash × Block)) :
    ∀ U : List (Hash × Header), (U.map Prod.fst).Nodup → U.length ≤ 2 →
      (commitUncles b { e with uncles := U } pool).uncles.length =
        min 2 ((U.map Prod.fst).toFinset ∪ admissibleHashes b { e with uncles := [] } pool).card := by
  induction pool with
  | nil =>
      intro U hnodup hle
      rw [commitUncles, admissibleHashes_nil, Finset.union_empty,
        List.toFinset_card_of_nodup hnodup, List.length_map]
      dsimp only
      omega
  | cons entry pool ih =>
      obtain ⟨hash, block⟩ := entry
      intro U hnodup hle
      have hcard : (U.map Prod.fst).toFinset.card = U.length := by
        rw [List.toFinset_card_of_nodup hnodup, List.length_map]
      have hfull_min : U.length = 2 →
          ∀ A : Finset Hash, U.length = min 2 ((U.map Prod.fst).toFinset ∪ A).card := by
        intro hfull A
        have := hcard ▸ Finset.card_le_card
          (Finset.subset_union_left : (U.map Prod.fst).toFinset ⊆ (U.map Prod.fst).toFinset ∪ A)
        omega
      rw [commitUncles_cons, admissibleHashes_cons]
      dsimp only
      by_cases hfull : U.length = 2
      · rw [if_pos hfull]
        exact hfull_min hfull _
      rw [if_neg hfull]
      by_cases hfresh : UncleAdmissible b { e with uncles := [] } block.header
      · rw [if_pos hfresh]
        by_cases hnew : b.hash block.header ∈ U.map Prod.fst
        · rw [if_neg fun hadm => ((uncleAdmissible_with_uncles b e U _).mp hadm).1 hnew,
            ih U hnodup hle, Finset.union_insert,
            Finset.insert_eq_of_mem (Finset.mem_union_left _ (List.mem_toFinset.mpr hnew))]
        · rw [if_pos ((uncleAdmissible_with_uncles b e U _).mpr ⟨hnew, hfresh⟩)]
          refine (ih _ (keys_append_nodup hnodup hnew) (by simp; omega)).trans ?_
          rw [List.map_append, List.toFinset_append, List.map_cons, List.map_nil,
            List.toFinset_cons, List.toFinset_nil, insert_emptyc_eq, Finset.union_assoc,
            ← Finset.insert_eq]
      · rw [if_neg hfresh, if_neg fun hadm => hfresh ((uncleAdmissible_with_uncles b e U _).mp hadm).2]
        exact ih U hnodup hle

/-- The keys of uncles taken from a pool are admissible hashes of that pool. -/
theorem keys_subset_admissibleHashes {env : Environment σ} {pool : List (Hash × Block)}
    {added : List (Hash × Header)}
    (h : ∀ entry ∈ added, entry.1 = b.hash entry.2 ∧ entry.2 ∈ admissibleUncles b env pool) :
    (added.map Prod.fst).toFinset ⊆ admissibleHashes b env pool := by
  intro hash hmem
  simp only [List.mem_toFinset, List.mem_map] at hmem
  obtain ⟨entry, hentry, rfl⟩ := hmem
  obtain ⟨hkey, hadm⟩ := h entry hentry
  rw [hkey]
  exact List.mem_toFinset.mpr (List.mem_map_of_mem _ hadm)

/-- `prepareWork`'s two uncle loops, run from an environment with no uncles:
every uncle is a block of one of the pools that `commitUncle` admits against
that environment, stored under its hash; no hash occurs twice; there are as
many as the admissible hashes of both pools allow, up to two; and as many of
them are local as the admissible local hashes allow, up to two. -/
theorem commitUncles_selection {fresh : Environment σ} (hnil : fresh.uncles = [])
    (localUncles remoteUncles : List (Hash × Block)) :
    let env := commitUncles b (commitUncles b fresh localUncles) remoteUncles
    (∀ entry ∈ env.uncles, entry.1 = b.hash entry.2 ∧
        entry.2 ∈ admissibleUncles b fresh localUncles ++ admissibleUncles b fresh remoteUncles) ∧
      (env.uncles.map Prod.fst).Nodup ∧
      env.uncles.length =
        min 2 (admissibleHashes b fresh localUncles ∪ admissibleHashes b fresh remoteUncles).card ∧
      (env.uncles.filter fun entry => entry.1 ∈ admissibleHashes b fresh localUncles).length =
        min 2 (admissibleHashes b fresh localUncles).card := by
  have hfresh : { fresh with uncles := [] } = fresh := by
    cases fresh
    cases hnil
    rfl
  -- the local loop, from no uncles
  obtain ⟨A₁, h₁, hnodup₁, hent₁⟩ := commitUncles_added b fresh localUncles [] List.nodup_nil
  have hlen₁ := commitUncles_length b fresh localUncles [] List.nodup_nil (by simp)
  rw [hfresh] at h₁ hent₁ hlen₁
  simp only [List.nil_append] at h₁ hnodup₁
  simp only [h₁, List.map_nil, List.toFinset_nil, Finset.empty_union] at hlen₁
  -- the remote loop, from the local loop's uncles
  obtain ⟨A₂, h₂, hnodup₂, hent₂⟩ := commitUncles_added b fresh remoteUncles A₁ hnodup₁
  have hlen₂ := commitUncles_length b fresh remoteUncles A₁ hnodup₁ (by omega)
  rw [hfresh] at hent₂ hlen₂
  rw [h₁, h₂]
  rw [h₂] at hlen₂
  dsimp only at hlen₂ ⊢
  -- the local loop's keys are admissible local hashes, as many as fit
  set AL := admissibleHashes b fresh localUncles
  set AR := admissibleHashes b fresh remoteUncles
  have hsub₁ : (A₁.map Prod.fst).toFinset ⊆ AL := keys_subset_admissibleHashes b hent₁
  have hcard₁ : (A₁.map Prod.fst).toFinset.card = A₁.length := by
    rw [List.toFinset_card_of_nodup hnodup₁, List.length_map]
  have hdisj := (List.nodup_append.mp (by simpa using hnodup₂ : (A₁.map Prod.fst ++
    A₂.map Prod.fst).Nodup)).2.2
  -- with fewer than two admissible local hashes the local loop takes them all;
  -- with two or more it fills the block, and the remote loop adds nothing
  have hK : AL.card < 2 → (A₁.map Prod.fst).toFinset = AL := fun hfew =>
    Finset.eq_of_subset_of_card_le hsub₁ (by omega)
  have hA₂ : 2 ≤ AL.card → A₂ = [] := fun hmany => by
    have := hlen₂.le.trans (min_le_left _ _)
    rw [List.length_append] at this
    exact List.eq_nil_of_length_eq_zero (by omega)
  refine ⟨fun entry hmem => ?_, hnodup₂, ?_, ?_⟩
  · rcases List.mem_append.mp hmem with hmem | hmem
    · exact ⟨(hent₁ entry hmem).1, List.mem_append_left _ (hent₁ entry hmem).2⟩
    · exact ⟨(hent₂ entry hmem).1, List.mem_append_right _ (hent₂ entry hmem).2⟩
  · by_cases hfew : AL.card < 2
    · rw [hlen₂, hK hfew]
    · have := Finset.card_le_card (Finset.subset_union_left : AL ⊆ AL ∪ AR)
      rw [hA₂ (by omega), List.append_nil, hlen₁]
      omega
  · have hkeep : A₁.filter (fun entry => entry.1 ∈ AL) = A₁ :=
      List.filter_eq_self.mpr fun entry hmem => by
        simpa using hsub₁ (List.mem_toFinset.mpr (List.mem_map_of_mem _ hmem))
    have hdrop : A₂.filter (fun entry => entry.1 ∈ AL) = [] := by
      by_cases hfew : AL.card < 2
      · rw [List.filter_eq_nil_iff, ← hK hfew]
        intro entry hmem hin
        simp only [decide_eq_true_eq, List.mem_toFinset] at hin
        exact hdisj hin (List.mem_map_of_mem _ hmem)
      · rw [hA₂ (by omega)]
        rfl
    rw [List.filter_append, hkeep, hdrop, List.append_nil, hlen₁]

variable {b}

/-- The uncles `prepareWork` installs, for every content of `localUncles` and
`remoteUncles` and every map order.  The fresh environment is the one
`prepareWork` builds: `makeEnv` on the chain head, for the header it made at the
clamped timestamp and passed through `engine.Prepare`; the two uncle loops run
on it.  Each uncle is a block of one of the pools that `commitUncle` admits
against that environment, stored under its hash; no
hash occurs twice; there are as many as the admissible hashes of both pools
allow, up to two; and as many of them are local as the admissible local hashes
allow, up to two. -/
theorem prepareWork_uncle_selection {w : Worker σ} {head : Option Block} {prefetcher : Nat}
    {params : GenerateParams} {env : Environment σ}
    (h : prepareWork b w head prefetcher params = .ok env) :
    ∃ parent header₀ header fresh, head = some parent ∧
      sealingHeader b w parent (if parent.header.time < params.timestamp then params.timestamp
        else (parent.header.time + 1) % uint64Mod) = .ok header₀ ∧
      b.prepare header₀ = .ok header ∧ makeEnv b prefetcher parent header w.coinbase = .ok fresh ∧
      env = commitUncles b (commitUncles b fresh w.localUncles) w.remoteUncles ∧
      (∀ entry ∈ env.uncles, entry.1 = b.hash entry.2 ∧
        entry.2 ∈ admissibleUncles b fresh w.localUncles ++ admissibleUncles b fresh w.remoteUncles) ∧
      (env.uncles.map Prod.fst).Nodup ∧
      env.uncles.length =
        min 2 (admissibleHashes b fresh w.localUncles ∪ admissibleHashes b fresh w.remoteUncles).card ∧
      (env.uncles.filter fun entry => entry.1 ∈ admissibleHashes b fresh w.localUncles).length =
        min 2 (admissibleHashes b fresh w.localUncles).card := by
  obtain ⟨parent, header₀, header, fresh, hhead, hsealing, hprep, hmake, rfl⟩ := prepareWork_spec h
  exact ⟨parent, header₀, header, fresh, hhead, hsealing, hprep, hmake, rfl,
    commitUncles_selection b (makeEnv_spec b prefetcher parent header w.coinbase hmake).2.2.2.2.2.1 _ _⟩

/-- `prepareWork_uncle_selection` on the sample chain, whose local pool holds one
admissible side block. -/
theorem prepareWork_uncle_selection_side_block :
    ∃ env, prepareWork chainBackend sampleWorker (some sampleHead) 0
        (sealingBlockParams 99 200 8 5) = .ok env ∧ env.uncles.length = 1 ∧
      ∃ parent header₀ header fresh, some sampleHead = some parent ∧
        sealingHeader chainBackend sampleWorker parent
          (if parent.header.time < (sealingBlockParams 99 200 8 5).timestamp then
            (sealingBlockParams 99 200 8 5).timestamp
          else (parent.header.time + 1) % uint64Mod) = .ok header₀ ∧
        chainBackend.prepare header₀ = .ok header ∧
        makeEnv chainBackend 0 parent header sampleWorker.coinbase = .ok fresh ∧
        env = commitUncles chainBackend (commitUncles chainBackend fresh sampleWorker.localUncles)
          sampleWorker.remoteUncles ∧
        (∀ entry ∈ env.uncles, entry.1 = chainBackend.hash entry.2 ∧
          entry.2 ∈ admissibleUncles chainBackend fresh sampleWorker.localUncles ++
            admissibleUncles chainBackend fresh sampleWorker.remoteUncles) ∧
        (env.uncles.map Prod.fst).Nodup ∧
        env.uncles.length = min 2 (admissibleHashes chainBackend fresh sampleWorker.localUncles ∪
          admissibleHashes chainBackend fresh sampleWorker.remoteUncles).card ∧
        (env.uncles.filter fun entry =>
            entry.1 ∈ admissibleHashes chainBackend fresh sampleWorker.localUncles).length =
          min 2 (admissibleHashes chainBackend fresh sampleWorker.localUncles).card := by
  obtain ⟨env, h, hlen⟩ : ∃ env, prepareWork chainBackend sampleWorker (some sampleHead) 0
      (sealingBlockParams 99 200 8 5) = .ok env ∧ env.uncles.length = 1 := ⟨_, rfl, rfl⟩
  exact ⟨env, h, hlen, prepareWork_uncle_selection h⟩

end UncleSelection

end QuaiWorker
