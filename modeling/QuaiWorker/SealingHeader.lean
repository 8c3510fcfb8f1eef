import QuaiWorker.PrepareWork

/-!
# Time and number of the sealing header

`prepareWork` checks the requested timestamp against the parent's: when it is
not later, a `forceTime` request fails and any other is moved to
`parent.Time() + 1`.  The header's number is `int64(num.Uint64()) + 1`.  Both
are computed on 64-bit integers: `parent.Time() + 1` wraps to zero at the top
of `uint64`, and the `int64` conversion and addition wrap from `2^63 - 1` to
`-2^63`.

**The engine.**  The header `prepareWork` installs has been through
`engine.Prepare`, which fills the engine's own fields.  The results below hold
for every engine whose `Prepare` leaves the time and the number alone.

**Results.**
* `prepareWork_time_number`: a `forceTime` request fails with the timestamp
  error exactly when its timestamp is not after the parent's, and otherwise
  `forceTime` changes nothing; on success the header's time is the timestamp
  or, clamped, `parent.Time + 1` modulo `2^64`, and its number is
  `parent.Number + 1` read back as an `int64`.
* `prepareWork_top_of_range`: on a parent at time `2^64 - 1` and number
  `2^63 - 1`, a request without `forceTime` gets a header at time `0`, before
  its parent, and number `-2^63`, while the same request with `forceTime` is
  rejected as invalid: the clamp meant to make the header later than its
  parent does not, at the top of the range.
-/

namespace QuaiWorker

section SealingHeader

variable {σ ι : Type}

/-- Every header `sealingHeader` builds has the given time and the parent's
number plus one, through `uint64` and `int64`. -/
theorem sealingHeader_time_number {b : Backend σ ι} {w : Worker σ} {parent : Block}
    {timestamp : Nat} {header : Header} (h : sealingHeader b w parent timestamp = .ok header) :
    header.time = timestamp ∧
      header.number = toInt64 (toUint64 (toInt64 (bigUint64 parent.header.number) + 1)) := by
  unfold sealingHeader at h
  split_ifs at h <;> cases h <;> exact ⟨rfl, rfl⟩

/-- `commitUncles` changes only the uncles. -/
theorem commitUncles_header (b : Backend σ ι) (pool : List (Hash × Block)) :
    ∀ env : Environment σ, (commitUncles b env pool).header = env.header := by
  induction pool with
  | nil => exact fun _ => rfl
  | cons entry pool ih =>
      intro env
      rw [commitUncles]
      split_ifs
      · rfl
      · split
        · rename_i env' hcommit
          rw [ih, ((commitUncle_ok_iff b env env' _).mp hcommit).2]
        · exact ih env

/-- A successful `prepareWork` on `parent` installs what `engine.Prepare`
returned for the header built at the clamped timestamp. -/
theorem prepareWork_header {b : Backend σ ι} {w : Worker σ} {parent : Block} {prefetcher : Nat}
    {params : GenerateParams} {env : Environment σ}
    (h : prepareWork b w (some parent) prefetcher params = .ok env) :
    ∃ header, sealingHeader b w parent
        (if parent.header.time < params.timestamp then params.timestamp
          else (parent.header.time + 1) % uint64Mod) = .ok header ∧
      b.prepare header = .ok env.header := by
  obtain ⟨_, header₀, header, fresh, hhead, hsealing, hprep, hmake, rfl⟩ := prepareWork_spec h
  cases hhead
  refine ⟨header₀, hsealing, ?_⟩
  rw [commitUncles_header, commitUncles_header, (makeEnv_spec b _ _ _ _ hmake).1]
  exact hprep

/-- The number `int64(num.Uint64()) + 1`, for a parent number in the `uint64`
range: one more, wrapped into `int64`. -/
theorem toInt64_succ_number {n : Int} (h0 : 0 ≤ n) (hlt : n < uint64Mod) :
    toInt64 (toUint64 (toInt64 (bigUint64 n) + 1)) =
      if n + 1 < 2 ^ 63 then n + 1 else n + 1 - uint64Mod := by
  obtain ⟨m, rfl⟩ := Int.eq_ofNat_of_zero_le h0
  have hM : uint64Mod = 18446744073709551616 := rfl
  simp only [bigUint64, Int.natAbs_ofNat, toInt64, toUint64, hM] at hlt ⊢
  split_ifs <;> omega

/-- `prepareWork` on a parent with a `uint64` time and number, for every
engine whose `Prepare` keeps the time and the number: a `forceTime` request
fails with the timestamp error exactly when its timestamp is not after the
parent's, and otherwise `forceTime` makes no difference.  On success the header
has the requested timestamp if it is after the parent's, else `parent.Time + 1`
modulo `2^64`; it is later than the parent exactly when the timestamp is or the
parent's time is below `2^64 - 1`; and its number is `parent.Number + 1` below
`2^63`, and `parent.Number + 1 - 2^64` from there on. -/
theorem prepareWork_time_number (b : Backend σ ι) (w : Worker σ) (parent : Block)
    (prefetcher : Nat) (params : GenerateParams)
    (hprepare : ∀ header header', b.prepare header = .ok header' →
      header'.time = header.time ∧ header'.number = header.number)
    (htime : parent.header.time < uint64Mod)
    (hnumber : 0 ≤ parent.header.number ∧ parent.header.number < uint64Mod) :
    prepareWork b w (some parent) prefetcher params =
        (if params.forceTime ∧ params.timestamp ≤ parent.header.time then
          .error ("invalid timestamp, parent " ++ toString parent.header.time ++ " given " ++
            toString params.timestamp)
        else prepareWork b w (some parent) prefetcher { params with forceTime := false }) ∧
    ∀ env, prepareWork b w (some parent) prefetcher params = .ok env →
      env.header.time = (if parent.header.time < params.timestamp then params.timestamp
        else if parent.header.time + 1 < uint64Mod then parent.header.time + 1 else 0) ∧
      (parent.header.time < env.header.time ↔
        parent.header.time < params.timestamp ∨ parent.header.time + 1 < uint64Mod) ∧
      env.header.number = (if parent.header.number + 1 < 2 ^ 63 then parent.header.number + 1
        else parent.header.number + 1 - uint64Mod) := by
  have hM : uint64Mod = 18446744073709551616 := rfl
  refine ⟨?_, fun env h => ?_⟩
  · by_cases hge : params.timestamp ≤ parent.header.time
    · cases hforce : params.forceTime <;> simp [prepareWork, hforce, hge]
    · simp [prepareWork, hge]
  · obtain ⟨header, hsealing, hprep⟩ := prepareWork_header h
    obtain ⟨htime', hnumber'⟩ := sealingHeader_time_number hsealing
    obtain ⟨hpt, hpn⟩ := hprepare _ _ hprep
    rw [hpt, htime']
    refine ⟨?_, ?_, by rw [hpn, hnumber', toInt64_succ_number hnumber.1 hnumber.2]⟩
    · rw [hM] at htime ⊢
      split_ifs <;> omega
    · rw [hM] at htime ⊢
      split_ifs <;> omega

/-- A parent at the top of both ranges: time `2^64 - 1`, number `2^63 - 1`. -/
def topHead : Block :=
  { header := sampleHeader (2 ^ 63 - 1) (2 ^ 64 - 1) 40 50, transactions := [], uncles := [] }

/-- A request for a timestamp that is not after `topHead`'s, without `forceTime`. -/
def staleParams : GenerateParams :=
  { timestamp := 0, forceTime := false, parentHash := 0, coinbase := 0, random := 0
    noUncle := false, noExtra := false }

/-- On `topHead`, a request without `forceTime` for a timestamp not after the
parent's succeeds with a header at time `0`, before its parent, and with number
`-2^63`, not `2^63`; the same request with `forceTime` is rejected, because a
timestamp not after the parent's is invalid. -/
theorem prepareWork_top_of_range :
    ∃ env, prepareWork basicBackend sampleWorker (some topHead) 0 staleParams = .ok env ∧
      env.header.time = 0 ∧ env.header.time < topHead.header.time ∧
      env.header.number = -2 ^ 63 ∧ env.header.number ≠ topHead.header.number + 1 ∧
      ∃ err, prepareWork basicBackend sampleWorker (some topHead) 0
        { staleParams with forceTime := true } = .error err := by
  have hprepare : ∀ header header', basicBackend.prepare header = .ok header' →
      header'.time = header.time ∧ header'.number = header.number := by
    intro header header' h
    cases h
    exact ⟨rfl, rfl⟩
  obtain ⟨env, h⟩ : ∃ env, prepareWork basicBackend sampleWorker (some topHead) 0 staleParams = .ok env :=
    ⟨_, rfl⟩
  -- the general law at the top of both ranges
  obtain ⟨htime, -, hnumber⟩ := (prepareWork_time_number basicBackend sampleWorker topHead 0 staleParams
    hprepare (by decide) (by decide)).2 env h
  have htime0 : env.header.time = 0 := by rw [htime]; decide
  have hnumber0 : env.header.number = -2 ^ 63 := by rw [hnumber]; decide
  exact ⟨env, h, htime0, by rw [htime0]; decide, hnumber0, by rw [hnumber0]; decide, _, rfl⟩

end SealingHeader

end QuaiWorker
