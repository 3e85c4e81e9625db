/-
The alias table across ranks.

`alias_table`'s constructor runs `balance_weight` on every rank, lets the
barrier deliver the append messages, and builds each rank's table from what the
rank received.  The collectives `balance_weight` calls are outside the
repository: `ygm::sum` gives every rank the total `G`, and `ygm::prefix_sum`
gives rank `r` the weight `P_r` of the ranks below it; each rank's weight `L_r`
is what its first loop, with its `uint32_t` index, exits with below `2^32` items.
Rank `r`'s interval `[P_r, P_r + L_r)` is then the next piece of `[0, G)`, and the
per-rank law of `Random/Blocks.lean` adds up: block `d` receives
`Σ_r |[P_r, P_{r+1}) ∩ [d·T, (d+1)·T)| = T` from the ranks together, in whatever
order the messages arrive.

Exact balance, per-id conservation and each rank's exact Vose table give the
sampler's law: a uniform rank, a uniform bucket and the coin draw `x` with
probability `W(x)/G`.
-/
import Ygm.Random.Blocks
import Ygm.Random.Vose
import Mathlib.Algebra.BigOperators.Group.Finset
import Mathlib.Algebra.BigOperators.Intervals
import Mathlib.Algebra.BigOperators.Ring
import Mathlib.Algebra.Order.BigOperators.Group.Finset

namespace Ygm

variable {α : Type}

section Collectives

variable (N : ℕ) (inputs : ℕ → List (Item α))

/-- Modelled from the spec: `ygm::sum(local_weight, m_comm)`, the ranks' weights added up. -/
def globalWeight : ℚ := ∑ r ∈ Finset.range N, localWeight (inputs r)

/-- Modelled from the spec: `ygm::prefix_sum(local_weight, m_comm)` as an exclusive prefix
sum, so rank `r` receives the weight of the ranks below it and not its own. -/
def prefixWeight (r : ℕ) : ℚ := ∑ s ∈ Finset.range r, localWeight (inputs s)

/-- `target_weight = global_weight / m_comm.size()`. -/
def targetWeight : ℚ := globalWeight N inputs / N

/-- Every rank's `m_comm.async` calls in `balance_weight`, rank by rank. -/
def balanceMessages : List (ℤ × List (Item α)) :=
  (List.range N).flatMap fun r =>
    balanceSends N (inputs r) (prefixWeight inputs r) (targetWeight N inputs)

/-- `W(x)`: the input weight that carries the id `x`, over all ranks. -/
def inputMass [DecidableEq α] (x : α) : ℚ := ∑ r ∈ Finset.range N, massOf x (inputs r)

end Collectives

/-- `is_balanced`'s comparison, `|a - b| < 1e-6`. -/
def withinTolerance (a b : ℚ) : Bool := decide (|a - b| < 1 / 1000000)

/-- Modelled from the spec: `ygm::is_same(x, m_comm, eq)`, whether every two ranks' values
agree under `eq`. -/
def isSame (eq : ℚ → ℚ → Bool) (vals : List ℚ) : Bool :=
  vals.all fun a => vals.all fun b => eq a b

/-- The release assertions that end `balance_weight`, over all ranks' `m_local_items`: each is
non-empty, each passes `is_balanced`'s `dif < 1e-6`, and `is_same` holds. -/
def balanceAsserts (target : ℚ) (ranks : List (List (Item α))) : Bool :=
  ranks.all (fun items => decide (0 < items.length) && withinTolerance target (localWeight items)) &&
    isSame withinTolerance (ranks.map localWeight)

/-- The tables the constructor leaves on the ranks, the append messages delivered in the order
`ord`: rank `d` builds from `collect ord d`, its `m_local_items` after the swap. -/
def aliasTables [Inhabited α] (ord : List (ℤ × List (Item α))) (d : ℕ) : LocalAliasTable α :=
  buildLocalAliasTable (collect ord d)

/-- The chance that one `async_sample` call hands `x` to the visitor: a destination rank
uniform on `[0, N)`, then that rank's bucket and coin. -/
def sampleChance [DecidableEq α] (N : ℕ) (tables : ℕ → LocalAliasTable α) (x : α) : ℚ :=
  (∑ d ∈ Finset.range N, tableChance (tables d) x) / N

/-! ### The first loop feeds the collectives -/

/-- What `ygm::sum` and `ygm::prefix_sum` add up is what each rank's first loop, with its
`uint32_t` index, exits with: below `2^32` items on every rank, and with fuel for one check
more than the items, each loop returns its rank's weight.  From `2^32` items on a rank's loop
never exits (`localWeightLoop_none`), and the collectives are never reached. -/
theorem globalWeight_eq_localWeightLoop (N : ℕ) (inputs : ℕ → List (Item α))
    (hlen : ∀ r < N, (inputs r).length < 2 ^ 32) (fuel : ℕ)
    (hfuel : ∀ r < N, (inputs r).length < fuel) :
    globalWeight N inputs =
        ∑ r ∈ Finset.range N, ((localWeightLoop (inputs r) fuel 0 0).map Prod.snd).getD 0 ∧
      ∀ r ≤ N, prefixWeight inputs r =
        ∑ s ∈ Finset.range r, ((localWeightLoop (inputs s) fuel 0 0).map Prod.snd).getD 0 := by
  have hloop : ∀ r < N,
      ((localWeightLoop (inputs r) fuel 0 0).map Prod.snd).getD 0 = localWeight (inputs r) :=
    fun r hr => by
      obtain ⟨j, -, h⟩ := localWeightLoop_eq_localWeight (inputs r) (hlen r hr) fuel (hfuel r hr)
      rw [h]
      rfl
  refine ⟨Finset.sum_congr rfl fun r hr => (hloop r (Finset.mem_range.1 hr)).symm,
    fun r hr => Finset.sum_congr rfl fun s hs => (hloop s ?_).symm⟩
  have := Finset.mem_range.1 hs
  omega

/-! ### Sums over ranks -/

theorem sum_list_range {M : Type} [AddCommMonoid M] (f : ℕ → M) (n : ℕ) :
    ((List.range n).map f).sum = ∑ i ∈ Finset.range n, f i := by
  induction n with
  | zero => rfl
  | succ n ih => simp [List.range_succ, Finset.sum_range_succ, ih]

theorem collect_flatMap {β : Type} (l : List β) (g : β → List (ℤ × List (Item α))) (d : ℤ) :
    collect (l.flatMap g) d = l.flatMap fun b => collect (g b) d := by
  induction l with
  | nil => rfl
  | cons b l ih => simp [ih]

/-- Every batch lands on exactly one rank of `[0, N)`. -/
theorem sum_massOf_collect [DecidableEq α] {N : ℕ} (msgs : List (ℤ × List (Item α)))
    (h : ∀ m ∈ msgs, 0 ≤ m.1 ∧ m.1 < N) (x : α) :
    ∑ d ∈ Finset.range N, massOf x (collect msgs d) = massOf x (msgs.flatMap Prod.snd) := by
  induction msgs with
  | nil => simp
  | cons m l ih =>
    simp only [List.mem_cons, forall_eq_or_imp] at h
    obtain ⟨k, hk⟩ := Int.eq_ofNat_of_zero_le h.1.1
    have hkN : k < N := by omega
    simp only [collect_cons, massOf_append, Finset.sum_add_distrib, List.flatMap_cons, ih h.2,
      hk, Nat.cast_inj]
    congr 1
    rw [Finset.sum_congr rfl fun d _ => (apply_ite (massOf x) (k = d) m.2 []).trans
      (by rw [massOf_nil]), Finset.sum_ite_eq, if_pos (Finset.mem_range.mpr hkN)]

section Balance

variable {N : ℕ} {inputs : ℕ → List (Item α)}

theorem prefixWeight_succ (r : ℕ) :
    prefixWeight inputs (r + 1) = prefixWeight inputs r + localWeight (inputs r) :=
  Finset.sum_range_succ _ _

theorem targetWeight_pos (hN : 0 < N) (hG : 0 < globalWeight N inputs) :
    0 < targetWeight N inputs :=
  div_pos hG (by exact_mod_cast hN)

theorem mul_targetWeight (hN : 0 < N) : N * targetWeight N inputs = globalWeight N inputs :=
  mul_div_cancel₀ _ (by exact_mod_cast hN.ne')

/-- No message carries an id that no rank's input has. -/
theorem balanceMessages_ids :
    ∀ m ∈ balanceMessages N inputs, ∀ itm ∈ m.2, ∃ r < N, itm.id ∈ (inputs r).map Item.id := by
  intro m hm itm hitm
  obtain ⟨r, hr, hm⟩ := List.mem_flatMap.mp hm
  exact ⟨r, List.mem_range.mp hr, balanceFlushes_ids m (List.mem_filter.mp hm).1 itm hitm⟩

/-- The release assertions pass once every rank holds a non-empty list of the target weight. -/
theorem balanceAsserts_of_balanced {target : ℚ} {ranks : List (List (Item α))}
    (h : ∀ items ∈ ranks, items ≠ [] ∧ localWeight items = target) :
    balanceAsserts target ranks = true := by
  simp only [balanceAsserts, isSame, withinTolerance, Bool.and_eq_true, List.all_eq_true,
    List.mem_map, decide_eq_true_eq, forall_exists_index, and_imp, forall_apply_eq_imp_iff₂]
  refine ⟨fun items hi => ⟨List.length_pos.mpr (h items hi).1, ?_⟩, fun a ha b hb => ?_⟩
  · rw [(h items hi).2]
    norm_num
  · rw [(h a ha).2, (h b hb).2]
    norm_num

variable (hw : ∀ r < N, ∀ itm ∈ inputs r, 0 ≤ itm.weight)
include hw

theorem prefixWeight_nonneg {r : ℕ} (hr : r ≤ N) : 0 ≤ prefixWeight inputs r :=
  Finset.sum_nonneg fun s hs =>
    localWeight_nonneg (hw s (by simp only [Finset.mem_range] at hs; omega))

/-- Rank `r < N`'s interval `[P_r, P_r + L_r)` ends by `N·T = G`. -/
theorem interval_le (hN : 0 < N) {r : ℕ} (hr : r < N) :
    prefixWeight inputs r + localWeight (inputs r) ≤ N * targetWeight N inputs := by
  rw [← prefixWeight_succ, mul_targetWeight hN]
  exact Finset.sum_le_sum_of_subset_of_nonneg (Finset.range_subset.mpr hr) fun s hs _ =>
    localWeight_nonneg (hw s (Finset.mem_range.mp hs))

variable (hN : 0 < N) (hG : 0 < globalWeight N inputs)
include hN hG

/-- Every message goes to a rank of `[0, N)` and carries no negative weight. -/
theorem balanceMessages_ok :
    ∀ m ∈ balanceMessages N inputs, (0 ≤ m.1 ∧ m.1 < N) ∧ ∀ itm ∈ m.2, 0 ≤ itm.weight := by
  intro m hm
  obtain ⟨r, hr, hm⟩ := List.mem_flatMap.mp hm
  have hr := List.mem_range.mp hr
  have hok := balanceSends_nonneg (N := N) (hw r hr) (prefixWeight_nonneg hw hr.le)
    (targetWeight_pos hN hG) m hm
  exact ⟨⟨hok.1, balanceSends_dest m hm⟩, hok.2⟩

/-- What rank `r` sends block `d` is the part of `[P_r, P_{r+1})` inside the block. -/
theorem localWeight_collect_balanceSends {d r : ℕ} (hd : d < N) (hr : r < N) :
    localWeight (collect (balanceSends N (inputs r) (prefixWeight inputs r) (targetWeight N inputs)) d) =
      blockClamp (targetWeight N inputs) d (prefixWeight inputs (r + 1)) -
        blockClamp (targetWeight N inputs) d (prefixWeight inputs r) := by
  have hT := targetWeight_pos hN hG
  rw [collect_balanceSends (by exact_mod_cast hd),
    balanceFlushes_weight (hw r hr) (prefixWeight_nonneg hw hr.le) hT,
    overlap_eq_clamp_sub (le_add_of_nonneg_right (localWeight_nonneg (hw r hr))) (by linarith),
    prefixWeight_succ]
  rfl

/-- Block `d < N` receives exactly `T` from the ranks together: the overlaps telescope over
`0 = P_0 ≤ P_1 ≤ … ≤ P_N = G`. -/
theorem localWeight_collect_balanceMessages {d : ℕ} (hd : d < N) :
    localWeight (collect (balanceMessages N inputs) d) = targetWeight N inputs := by
  have hT := targetWeight_pos hN hG
  have hG' : prefixWeight inputs N = N * targetWeight N inputs := (mul_targetWeight hN).symm
  have hdN : ((d : ℤ) + 1 : ℚ) * targetWeight N inputs ≤ N * targetWeight N inputs :=
    mul_le_mul_of_nonneg_right (by exact_mod_cast hd) hT.le
  rw [balanceMessages, collect_flatMap, localWeight_flatMap, sum_list_range,
    Finset.sum_congr rfl fun r hr =>
      localWeight_collect_balanceSends hw hN hG hd (Finset.mem_range.mp hr),
    Finset.sum_range_sub (fun r => blockClamp (targetWeight N inputs) d (prefixWeight inputs r)),
    hG', blockClamp, blockClamp, clamp_of_ge (by linarith) hdN,
    clamp_of_le (by simp only [prefixWeight, Finset.range_zero, Finset.sum_empty]; positivity)]
  ring

/-- Everything the ranks send carries every id's input weight. -/
theorem massOf_balanceMessages [DecidableEq α] (x : α) :
    massOf x ((balanceMessages N inputs).flatMap Prod.snd) = inputMass N inputs x := by
  rw [balanceMessages, List.flatMap_assoc, massOf_flatMap, sum_list_range]
  exact Finset.sum_congr rfl fun r hr =>
    have hr := Finset.mem_range.mp hr
    massOf_balanceSends (hw r hr) (prefixWeight_nonneg hw hr.le) (targetWeight_pos hN hG)
      (interval_le hw hN hr) x

/-! ### Delivery in any order -/

variable {ord : List (ℤ × List (Item α))} (hord : ord.Perm (balanceMessages N inputs))
include hord

theorem collect_ok {d : ℕ} : ∀ itm ∈ collect ord d, 0 ≤ itm.weight := fun itm hitm =>
  have ⟨m, hm, _, hitm⟩ := mem_collect.mp hitm
  (balanceMessages_ok hw hN hG m (hord.mem_iff.mp hm)).2 itm hitm

/-- Rank `d < N` ends with exactly `T`, whatever order the messages arrived in. -/
theorem localWeight_collect {d : ℕ} (hd : d < N) :
    localWeight (collect ord d) = targetWeight N inputs :=
  (localWeight_perm (collect_perm hord d)).trans (localWeight_collect_balanceMessages hw hN hG hd)

/-- The ranks' post-balance items together carry every id's input weight. -/
theorem sum_massOf_collect_ord [DecidableEq α] (x : α) :
    ∑ d ∈ Finset.range N, massOf x (collect ord d) = inputMass N inputs x := by
  rw [sum_massOf_collect ord (fun m hm => (balanceMessages_ok hw hN hG m (hord.mem_iff.mp hm)).1),
    massOf_perm x (hord.flatMap_right _), massOf_balanceMessages hw hN hG]

end Balance

/-! ### The alias table over all ranks -/

/-- Two ranks for the examples: rank 0 holds id 0 of weight 3 and rank 1 holds id 1 of weight 1,
so that with `T = 2` id 0 is split across both ranks. -/
def splitInputs : ℕ → List (Item ℕ)
  | 0 => [⟨0, 3⟩]
  | _ => [⟨1, 1⟩]

theorem splitInputs_ok : ∀ r < 2, ∀ itm ∈ splitInputs r, 0 ≤ itm.weight := by
  intro r _ itm hitm
  cases r <;> simp only [splitInputs, List.mem_singleton] at hitm <;> subst hitm <;> norm_num

theorem globalWeight_splitInputs : globalWeight 2 splitInputs = 4 := by
  simp [globalWeight, Finset.sum_range_succ, splitInputs]
  norm_num

/-- After `balance_weight`'s final barrier and swap, every rank `d < N` holds a non-empty list of
weight exactly `G/N`, whatever order the append messages arrived in, so its release assertions
pass. -/
theorem balanceWeight_exact (N : ℕ) (inputs : ℕ → List (Item α)) (hN : 0 < N)
    (hw : ∀ r < N, ∀ itm ∈ inputs r, 0 ≤ itm.weight) (hG : 0 < globalWeight N inputs)
    (ord : List (ℤ × List (Item α))) (hord : ord.Perm (balanceMessages N inputs)) :
    (∀ d : ℕ, d < N → collect ord d ≠ [] ∧ localWeight (collect ord d) = globalWeight N inputs / N) ∧
      balanceAsserts (targetWeight N inputs) ((List.range N).map fun d : ℕ => collect ord d) =
        true := by
  have hd : ∀ d : ℕ, d < N → collect ord d ≠ [] ∧ localWeight (collect ord d) = targetWeight N inputs :=
    fun d hd => have h := localWeight_collect hw hN hG hord hd
      ⟨ne_nil_of_localWeight_pos (h ▸ targetWeight_pos hN hG), h⟩
  refine ⟨hd, balanceAsserts_of_balanced ?_⟩
  simp only [List.mem_map, List.mem_range]
  rintro _ ⟨d, hdN, rfl⟩
  exact hd d hdN

/-- The messages delivered in reverse order on the two ranks of `splitInputs`. -/
theorem balanceWeight_exact_split :
    0 < 2 ∧ (∀ r < 2, ∀ itm ∈ splitInputs r, 0 ≤ itm.weight) ∧ 0 < globalWeight 2 splitInputs ∧
      (∀ d : ℕ, d < 2 → collect (balanceMessages 2 splitInputs).reverse d ≠ [] ∧
        localWeight (collect (balanceMessages 2 splitInputs).reverse d) =
          globalWeight 2 splitInputs / ((2 : ℕ) : ℚ)) ∧
      balanceAsserts (targetWeight 2 splitInputs)
        ((List.range 2).map fun d : ℕ => collect (balanceMessages 2 splitInputs).reverse d) = true :=
  have hG : 0 < globalWeight 2 splitInputs := by rw [globalWeight_splitInputs]; norm_num
  ⟨by decide, splitInputs_ok, hG,
    balanceWeight_exact 2 splitInputs (by decide) splitInputs_ok hG _ (List.reverse_perm _)⟩

/-- The ranks' post-balance fragments carry every id's input weight: summed over the ranks, the
fragments of id `x` weigh `W(x)`.  Every fragment's id is an input id, and every batch the
`dest_rank < N` guards keep back weighs nothing. -/
theorem balanceWeight_conserves [DecidableEq α] (N : ℕ) (inputs : ℕ → List (Item α)) (hN : 0 < N)
    (hw : ∀ r < N, ∀ itm ∈ inputs r, 0 ≤ itm.weight) (hG : 0 < globalWeight N inputs)
    (ord : List (ℤ × List (Item α))) (hord : ord.Perm (balanceMessages N inputs)) :
    (∀ x, ∑ d ∈ Finset.range N, massOf x (collect ord d) = inputMass N inputs x) ∧
      (∀ d : ℕ, d < N → ∀ itm ∈ collect ord d, ∃ r < N, itm.id ∈ (inputs r).map Item.id) ∧
      ∀ r < N, ∀ m ∈ balanceFlushes (inputs r) (prefixWeight inputs r) (targetWeight N inputs),
        N ≤ m.1 → ∀ itm ∈ m.2, itm.weight = 0 := by
  refine ⟨sum_massOf_collect_ord hw hN hG hord, fun d _ itm hitm => ?_, fun r hr => ?_⟩
  · obtain ⟨m, hm, -, hitm⟩ := mem_collect.mp hitm
    exact balanceMessages_ids m (hord.mem_iff.mp hm) itm hitm
  · exact balanceFlushes_dropped (hw r hr) (prefixWeight_nonneg hw hr.le) (targetWeight_pos hN hG)
      (interval_le hw hN hr)

theorem balanceWeight_conserves_split :
    0 < 2 ∧ (∀ r < 2, ∀ itm ∈ splitInputs r, 0 ≤ itm.weight) ∧ 0 < globalWeight 2 splitInputs ∧
      (∀ x, ∑ d ∈ Finset.range 2, massOf x (collect (balanceMessages 2 splitInputs).reverse d) =
        inputMass 2 splitInputs x) ∧
      (∀ d : ℕ, d < 2 → ∀ itm ∈ collect (balanceMessages 2 splitInputs).reverse d,
        ∃ r < 2, itm.id ∈ (splitInputs r).map Item.id) ∧
      ∀ r < 2, ∀ m ∈ balanceFlushes (splitInputs r) (prefixWeight splitInputs r)
        (targetWeight 2 splitInputs), ((2 : ℕ) : ℤ) ≤ m.1 → ∀ itm ∈ m.2, itm.weight = 0 :=
  have hG : 0 < globalWeight 2 splitInputs := by rw [globalWeight_splitInputs]; norm_num
  ⟨by decide, splitInputs_ok, hG,
    balanceWeight_conserves 2 splitInputs (by decide) splitInputs_ok hG _ (List.reverse_perm _)⟩

/-- One `async_sample` call hands the visitor `x` with probability `W(x)/G`: the balanced ranks
make the uniform rank choice fair, and each rank's Vose table is exact. -/
theorem sampleChance_eq_share [Inhabited α] [DecidableEq α] (N : ℕ) (inputs : ℕ → List (Item α))
    (hN : 0 < N) (hw : ∀ r < N, ∀ itm ∈ inputs r, 0 ≤ itm.weight)
    (hG : 0 < globalWeight N inputs) (ord : List (ℤ × List (Item α)))
    (hord : ord.Perm (balanceMessages N inputs)) (x : α) :
    sampleChance N (aliasTables ord) x = inputMass N inputs x / globalWeight N inputs := by
  have hT := targetWeight_pos hN hG
  have hd : ∀ d ∈ Finset.range N, tableChance (aliasTables ord d) x =
      massOf x (collect ord d) / targetWeight N inputs := fun d hd =>
    have hL := localWeight_collect hw hN hG hord (Finset.mem_range.mp hd)
    hL ▸ tableChance_buildLocalAliasTable (collect_ok hw hN hG hord) (hL ▸ hT) x
  rw [sampleChance, Finset.sum_congr rfl hd, ← Finset.sum_div, sum_massOf_collect_ord hw hN hG hord,
    ← mul_targetWeight hN, div_div, mul_comm]

theorem sampleChance_eq_share_split :
    0 < 2 ∧ (∀ r < 2, ∀ itm ∈ splitInputs r, 0 ≤ itm.weight) ∧ 0 < globalWeight 2 splitInputs ∧
      sampleChance 2 (aliasTables (balanceMessages 2 splitInputs).reverse) 0 =
        inputMass 2 splitInputs 0 / globalWeight 2 splitInputs :=
  have hG : 0 < globalWeight 2 splitInputs := by rw [globalWeight_splitInputs]; norm_num
  ⟨by decide, splitInputs_ok, hG,
    sampleChance_eq_share 2 splitInputs (by decide) splitInputs_ok hG _ (List.reverse_perm _) 0⟩

/-- Every rank's table can be sampled: it has a bucket, so `m_num_items_uniform_dist`'s range
`[0, size() - 1]` is not empty, and its average weight is positive, so the coin's range
`[0, avg_weight)` is not empty either. -/
theorem aliasTables_samplable [Inhabited α] [DecidableEq α] (N : ℕ) (inputs : ℕ → List (Item α))
    (hN : 0 < N) (hw : ∀ r < N, ∀ itm ∈ inputs r, 0 ≤ itm.weight)
    (hG : 0 < globalWeight N inputs) (ord : List (ℤ × List (Item α)))
    (hord : ord.Perm (balanceMessages N inputs)) :
    ∀ d : ℕ, d < N → 0 < (aliasTables ord d).buckets.length ∧ 0 < (aliasTables ord d).avgWeight := by
  intro d hd
  have hpos : 0 < localWeight (collect ord d) :=
    (localWeight_collect hw hN hG hord hd).symm ▸ targetWeight_pos hN hG
  have hlen := List.length_pos.mpr (ne_nil_of_localWeight_pos hpos)
  refine ⟨(buildLocalAliasTable_spec (collect_ok hw hN hG hord) hpos).1 ▸ hlen, ?_⟩
  exact div_pos hpos (by exact_mod_cast hlen)

theorem aliasTables_samplable_split :
    0 < 2 ∧ (∀ r < 2, ∀ itm ∈ splitInputs r, 0 ≤ itm.weight) ∧ 0 < globalWeight 2 splitInputs ∧
      ∀ d : ℕ, d < 2 → 0 < (aliasTables (balanceMessages 2 splitInputs).reverse d).buckets.length ∧
        0 < (aliasTables (balanceMessages 2 splitInputs).reverse d).avgWeight :=
  have hG : 0 < globalWeight 2 splitInputs := by rw [globalWeight_splitInputs]; norm_num
  ⟨by decide, splitInputs_ok, hG,
    aliasTables_samplable 2 splitInputs (by decide) splitInputs_ok hG _ (List.reverse_perm _)⟩

end Ygm
