/-
The balancer's splitting loop, one rank at a time.

`balance_weight` lays the ranks' weights end to end on one line: rank `r` owns
`[P, P + L)`, where `P` is the weight of the ranks below it and `L` its own.
The line is cut into blocks `[d·T, (d+1)·T)` of the target weight `T`, and
block `d` is what rank `d` holds after balancing.  The loop walks the rank's
items and pours them into the current block; `curr_weight` is how full that
block is, and when an item fills it the part that fits is sent to `dest_rank`
and the rest carried over.  A rest of a whole block or more is appended to
`m_local_items` and met again later, which is why the loop reads the size of
the list on every iteration.

Everything here is about one rank, given its `P` and `T`; the collectives that
supply them are in `Random/AliasTable.lean`.  The loop is run on fuel, and
`balanceFuel` is shown to be enough: each iteration either reads an item or
moves `dest_rank` up a block, and there are only so many blocks below `P + L`.

Before all this `balance_weight` totals the rank's items in a loop of its own,
whose index is a `uint32_t` where the splitting loop's is a `uint64_t`.  Below
`2^32` items that loop computes `localWeight`; from `2^32` items on, `i++` wraps
before `i < size()` fails, and the loop never exits.
-/
import Ygm.Random.Item
import Mathlib.Order.Interval.Finset.Defs
import Mathlib.Data.Int.Interval

namespace Ygm

/-- C++'s conversion of a `double` to `int`, which truncates toward zero. -/
def truncToInt (q : ℚ) : ℤ := if 0 ≤ q then ⌊q⌋ else ⌈q⌉

/-- `std::fmod`: the remainder of the division truncated toward zero. -/
def fmod (x y : ℚ) : ℚ := x - truncToInt (x / y) * y

variable {α : Type}

/-- The locals of `balance_weight`'s splitting loop. -/
structure BalanceLoop (α : Type) where
  /-- `m_local_items`, which the loop appends remainders to as it runs. -/
  localItems : List (Item α)
  /-- The loop index. -/
  i : ℕ
  /-- `curr_weight`: how much of `dest_rank`'s block is filled. -/
  currWeight : ℚ
  /-- `dest_rank`. -/
  destRank : ℤ
  /-- `items_to_send`: fragments gathered for `dest_rank` and not sent yet. -/
  itemsToSend : List (Item α)
  /-- Every batch handed to a `dest_rank < m_comm.size()` guard, with its destination. -/
  flushed : List (ℤ × List (Item α))

/-- The locals before the first iteration, for a rank starting at `P` with target `T`. -/
def balanceInit (items : List (Item α)) (P T : ℚ) : BalanceLoop α where
  localItems := items
  i := 0
  currWeight := fmod P T
  destRank := truncToInt (P / T)
  itemsToSend := []
  flushed := []

/-- One pass of the loop body on `local_item = m_local_items[i]`.  The store
`curr_weight += weight_to_send` is overwritten on both paths after it and is left out. -/
def balanceStep (T : ℚ) (s : BalanceLoop α) (localItem : Item α) : BalanceLoop α :=
  if s.currWeight + localItem.weight ≥ T then
    let remainingWeight := s.currWeight + localItem.weight - T
    let weightToSend := localItem.weight - remainingWeight
    let currWeight := if remainingWeight ≥ T then 0 else remainingWeight
    { localItems :=
        if remainingWeight ≥ T then s.localItems ++ [⟨localItem.id, remainingWeight⟩]
        else s.localItems
      i := s.i + 1
      currWeight := currWeight
      destRank := s.destRank + 1
      itemsToSend := if currWeight ≠ 0 then [⟨localItem.id, currWeight⟩] else []
      flushed := s.flushed ++ [(s.destRank, s.itemsToSend ++ [⟨localItem.id, weightToSend⟩])] }
  else
    { s with
      i := s.i + 1
      itemsToSend := s.itemsToSend ++ [localItem]
      currWeight := s.currWeight + localItem.weight }

/-- `for (uint64_t i = 0; i < m_local_items.size(); i++)`, for at most `fuel` iterations. -/
def balanceLoop (T : ℚ) : ℕ → BalanceLoop α → BalanceLoop α
  | 0, s => s
  | fuel + 1, s =>
    match s.localItems[s.i]? with
    | some localItem => balanceLoop T fuel (balanceStep T s localItem)
    | none => s

/-- How many of the first `fuel` iterations take the `curr_weight + weight >= target_weight`
branch, the branch that fills a block. -/
def fillCount (T : ℚ) : ℕ → BalanceLoop α → ℕ
  | 0, _ => 0
  | fuel + 1, s =>
    match s.localItems[s.i]? with
    | some localItem =>
      (if s.currWeight + localItem.weight ≥ T then 1 else 0) +
        fillCount T fuel (balanceStep T s localItem)
    | none => 0

/-- How many multiples of `T` lie in `(a, b]`; each is `k·T` for one `k` in the range searched. -/
def multiplesIn (T a b : ℚ) : ℕ :=
  ((Finset.Ioc ⌊a / T⌋ ⌊b / T⌋).filter fun k : ℤ => a < k * T ∧ k * T ≤ b).card

/-- Iterations enough for the loop to finish: one per item, one per block below `P + L`. -/
def balanceFuel (items : List (Item α)) (P T : ℚ) : ℕ :=
  items.length + ⌊(P + localWeight items) / T⌋₊

/-- The batches `balance_weight` hands to its `dest_rank < m_comm.size()` guards: those of
the loop, then what is left in `items_to_send`. -/
def balanceFlushes (items : List (Item α)) (P T : ℚ) : List (ℤ × List (Item α)) :=
  let s := balanceLoop T (balanceFuel items P T) (balanceInit items P T)
  s.flushed ++ if s.itemsToSend.length > 0 then [(s.destRank, s.itemsToSend)] else []

/-- The `m_comm.async` calls of `balance_weight`: the batches that pass the guard. -/
def balanceSends (N : ℕ) (items : List (Item α)) (P T : ℚ) : List (ℤ × List (Item α)) :=
  (balanceFlushes items P T).filter fun m => m.1 < N

/-- The items of the batches addressed to `d`, in the order of the list. -/
def collect (msgs : List (ℤ × List (Item α))) (d : ℤ) : List (Item α) :=
  (msgs.filter fun m => m.1 = d).flatMap Prod.snd

/-! ### What one iteration does -/

section Step

variable {T : ℚ} {s : BalanceLoop α} {itm : Item α}

/-- The item fits in the current block. -/
theorem balanceStep_pour (h : s.currWeight + itm.weight < T) :
    balanceStep T s itm =
      { s with
        i := s.i + 1
        itemsToSend := s.itemsToSend ++ [itm]
        currWeight := s.currWeight + itm.weight } := by
  simp [balanceStep, not_le.mpr h]

/-- The item fills the block, and less than a block is left over: it is carried. -/
theorem balanceStep_spill (h : T ≤ s.currWeight + itm.weight)
    (hr : s.currWeight + itm.weight - T < T) :
    balanceStep T s itm =
      { localItems := s.localItems
        i := s.i + 1
        currWeight := s.currWeight + itm.weight - T
        destRank := s.destRank + 1
        itemsToSend :=
          if s.currWeight + itm.weight - T ≠ 0 then
            [⟨itm.id, s.currWeight + itm.weight - T⟩] else []
        flushed := s.flushed ++
          [(s.destRank, s.itemsToSend ++ [⟨itm.id, itm.weight - (s.currWeight + itm.weight - T)⟩])] } := by
  simp [balanceStep, h, not_le.mpr hr]

/-- The item fills the block, and a block or more is left over: it is appended. -/
theorem balanceStep_span (hT : 0 ≤ T) (h : T ≤ s.currWeight + itm.weight - T) :
    balanceStep T s itm =
      { localItems := s.localItems ++ [⟨itm.id, s.currWeight + itm.weight - T⟩]
        i := s.i + 1
        currWeight := 0
        destRank := s.destRank + 1
        itemsToSend := []
        flushed := s.flushed ++
          [(s.destRank, s.itemsToSend ++ [⟨itm.id, itm.weight - (s.currWeight + itm.weight - T)⟩])] } := by
  have hfill : T ≤ s.currWeight + itm.weight := by linarith
  simp [balanceStep, hfill, h]

@[simp] theorem balanceStep_i : (balanceStep T s itm).i = s.i + 1 := by
  unfold balanceStep; split <;> rfl

/-- The three ways an iteration can go. -/
theorem balanceStep_cases (T : ℚ) (s : BalanceLoop α) (itm : Item α) :
    s.currWeight + itm.weight < T ∨
      (T ≤ s.currWeight + itm.weight ∧ s.currWeight + itm.weight - T < T) ∨
      T ≤ s.currWeight + itm.weight - T := by
  rcases lt_or_le (s.currWeight + itm.weight) T with h | h
  · exact .inl h
  · rcases lt_or_le (s.currWeight + itm.weight - T) T with hr | hr
    · exact .inr (.inl ⟨h, hr⟩)
    · exact .inr (.inr hr)

end Step

theorem localWeight_carry (id : α) (c : ℚ) :
    localWeight (if c ≠ 0 then [(⟨id, c⟩ : Item α)] else []) = c := by
  split <;> simp_all

theorem drop_eq_cons_of_getElem? {l : List (Item α)} {n : ℕ} {a : Item α}
    (h : l[n]? = some a) : l.drop n = a :: l.drop (n + 1) := by
  obtain ⟨hn, rfl⟩ := List.getElem?_eq_some.mp h
  exact List.drop_eq_getElem_cons hn

theorem lt_length_of_getElem? {l : List (Item α)} {n : ℕ} {a : Item α}
    (h : l[n]? = some a) : n < l.length :=
  (List.getElem?_eq_some.mp h).1

/-- What every iteration keeps, the whole loop keeps. -/
theorem balanceLoop_induction {T : ℚ} (Q : BalanceLoop α → Prop)
    (hstep : ∀ s itm, s.localItems[s.i]? = some itm → Q s → Q (balanceStep T s itm)) :
    ∀ fuel s, Q s → Q (balanceLoop T fuel s) := by
  intro fuel
  induction fuel with
  | zero => exact fun _ h => h
  | succ n ih =>
    intro s h
    simp only [balanceLoop]
    split
    · next itm hitm => exact ih _ (hstep s itm hitm h)
    · exact h

theorem balanceStep_destRank {T : ℚ} (s : BalanceLoop α) (itm : Item α) :
    (balanceStep T s itm).destRank =
      s.destRank + if s.currWeight + itm.weight ≥ T then 1 else 0 := by
  unfold balanceStep; split <;> simp [*]

theorem balanceStep_length_le {T : ℚ} (s : BalanceLoop α) (itm : Item α) :
    (balanceStep T s itm).localItems.length ≤
      s.localItems.length + if s.currWeight + itm.weight ≥ T then 1 else 0 := by
  unfold balanceStep
  split
  · simp only [if_true, *]
    split <;> simp
  · simp [*]

/-! ### The loop's invariant

`position` is where the loop stands on the weight line, `dest_rank·T +
curr_weight`, and `pending` the weight of the items it has not reached.  Their
sum never moves: it starts at `P + L`, and each iteration only passes weight
from one to the other, a remainder it appends included.
-/

namespace BalanceLoop

/-- Where the loop stands on the global weight line. -/
def position (T : ℚ) (s : BalanceLoop α) : ℚ := s.destRank * T + s.currWeight

/-- The weight of the items the loop has not reached, appended remainders included. -/
def pending (s : BalanceLoop α) : ℚ := localWeight (s.localItems.drop s.i)

/-- Items still to read, plus blocks `dest_rank` can still move through before `E`. -/
def measure (T E : ℚ) (s : BalanceLoop α) : ℕ :=
  (s.localItems.length - s.i) + (⌊E / T⌋ - s.destRank).toNat

end BalanceLoop

/-- What holds before and after every iteration, for a rank whose interval ends at `E`. -/
structure LoopInv (T E : ℚ) (s : BalanceLoop α) : Prop where
  /-- No item, read or appended, weighs less than nothing. -/
  items_nonneg : ∀ itm ∈ s.localItems, 0 ≤ itm.weight
  /-- `curr_weight` stays inside the current block. -/
  curr_nonneg : 0 ≤ s.currWeight
  curr_lt : s.currWeight < T
  dest_nonneg : 0 ≤ s.destRank
  /-- The weight passed and the weight ahead add up to the end of the interval. -/
  position_add_pending : s.position T + s.pending = E

section Invariant

variable {T E : ℚ} {s : BalanceLoop α} {itm : Item α}

theorem pending_eq_of_getElem? (h : s.localItems[s.i]? = some itm) :
    s.pending = itm.weight + localWeight (s.localItems.drop (s.i + 1)) := by
  rw [BalanceLoop.pending, drop_eq_cons_of_getElem? h, localWeight_cons]

theorem LoopInv.step (hT : 0 < T) (hs : LoopInv T E s) (h : s.localItems[s.i]? = some itm) :
    LoopInv T E (balanceStep T s itm) := by
  have hw : 0 ≤ itm.weight := hs.items_nonneg itm (List.getElem?_mem h)
  have hpend := pending_eq_of_getElem? h
  have hE := hs.position_add_pending
  unfold BalanceLoop.position at hE
  rcases balanceStep_cases T s itm with hc | ⟨hc, hr⟩ | hr
  · rw [balanceStep_pour hc]
    refine ⟨hs.items_nonneg, ?_, hc, hs.dest_nonneg, ?_⟩ <;>
      simp only [BalanceLoop.position, BalanceLoop.pending] <;> linarith [hs.curr_nonneg]
  · rw [balanceStep_spill hc hr]
    refine ⟨hs.items_nonneg, ?_, hr, ?_, ?_⟩ <;>
      simp only [BalanceLoop.position, BalanceLoop.pending] <;> push_cast <;>
      linarith [hs.dest_nonneg]
  · rw [balanceStep_span hT.le hr]
    have hle : s.i + 1 ≤ s.localItems.length := lt_length_of_getElem? h
    refine ⟨?_, le_refl 0, hT, ?_, ?_⟩ <;>
      simp only [BalanceLoop.position, BalanceLoop.pending, List.drop_append_of_le_length hle,
        localWeight_append, localWeight_cons, localWeight_nil, List.mem_append,
        List.mem_singleton]
    · rintro x (hx | rfl)
      · exact hs.items_nonneg x hx
      · simp only; linarith
    · linarith [hs.dest_nonneg]
    · push_cast; linarith

theorem LoopInv.loop (hT : 0 < T) (fuel : ℕ) (hs : LoopInv T E s) :
    LoopInv T E (balanceLoop T fuel s) :=
  balanceLoop_induction (LoopInv T E) (fun _ _ h hs => hs.step hT h) fuel s hs

theorem truncToInt_of_nonneg {q : ℚ} (h : 0 ≤ q) : truncToInt q = ⌊q⌋ := if_pos h

/-- The loop starts at `P`, with `dest_rank = ⌊P/T⌋` and `curr_weight` the rest. -/
theorem loopInv_init (items : List (Item α)) (hw : ∀ itm ∈ items, 0 ≤ itm.weight)
    {P : ℚ} (hP : 0 ≤ P) (hT : 0 < T) :
    LoopInv T (P + localWeight items) (balanceInit items P T) := by
  have hq : 0 ≤ P / T := div_nonneg hP hT.le
  have hlo : (⌊P / T⌋ : ℚ) * T ≤ P := (le_div_iff₀ hT).mp (Int.floor_le _)
  have hhi : P < (⌊P / T⌋ + 1) * T := (div_lt_iff₀ hT).mp (Int.lt_floor_add_one _)
  refine ⟨hw, ?_, ?_, ?_, ?_⟩ <;>
    simp only [balanceInit, fmod, truncToInt_of_nonneg hq, BalanceLoop.position,
      BalanceLoop.pending, List.drop_zero]
  · linarith
  · linarith
  · exact Int.floor_nonneg.mpr hq
  · ring

theorem LoopInv.destRank_le (hT : 0 < T) (hs : LoopInv T E s) : s.destRank ≤ ⌊E / T⌋ := by
  have hpend : 0 ≤ s.pending :=
    localWeight_nonneg fun itm h => hs.items_nonneg itm (List.mem_of_mem_drop h)
  have hE := hs.position_add_pending
  unfold BalanceLoop.position at hE
  exact Int.le_floor.mpr ((le_div_iff₀ hT).mpr (by linarith [hs.curr_nonneg]))

end Invariant

/-! ### The loop finishes -/

section Termination

variable {T E : ℚ}

/-- Every iteration reads an item, or moves `dest_rank` to a block below `E` and appends. -/
theorem LoopInv.measure_step {s : BalanceLoop α} {itm : Item α} (hT : 0 < T)
    (hs : LoopInv T E s) (h : s.localItems[s.i]? = some itm) :
    (balanceStep T s itm).measure T E < s.measure T E := by
  have hi := lt_length_of_getElem? h
  have hd := (hs.step hT h).destRank_le hT
  unfold BalanceLoop.measure
  rcases balanceStep_cases T s itm with hc | ⟨hc, hr⟩ | hr
  · rw [balanceStep_pour hc]; simp only; omega
  · rw [balanceStep_spill hc hr] at hd ⊢; simp only at hd ⊢; omega
  · rw [balanceStep_span hT.le hr] at hd ⊢
    simp only [List.length_append, List.length_singleton] at hd ⊢
    omega

theorem balanceLoop_done (hT : 0 < T) :
    ∀ fuel (s : BalanceLoop α), LoopInv T E s → s.measure T E ≤ fuel →
      (balanceLoop T fuel s).localItems.length ≤ (balanceLoop T fuel s).i := by
  intro fuel
  induction fuel with
  | zero =>
    intro s _ hm
    unfold BalanceLoop.measure at hm
    simp only [balanceLoop]
    omega
  | succ n ih =>
    intro s hs hm
    cases h : s.localItems[s.i]? with
    | some itm =>
      simp only [balanceLoop, h]
      exact ih _ (hs.step hT h) (by have := hs.measure_step hT h; omega)
    | none =>
      simp only [balanceLoop, h]
      exact List.getElem?_eq_none_iff.mp h

theorem fillCount_eq :
    ∀ fuel (s : BalanceLoop α),
      (fillCount T fuel s : ℤ) = (balanceLoop T fuel s).destRank - s.destRank := by
  intro fuel
  induction fuel with
  | zero => intro s; simp [fillCount, balanceLoop]
  | succ n ih =>
    intro s
    cases h : s.localItems[s.i]? with
    | some itm =>
      simp only [fillCount, balanceLoop, h, Nat.cast_add, ih, balanceStep_destRank]
      split <;> simp
      ring
    | none => simp [fillCount, balanceLoop, h]

/-- Only an iteration that fills a block can append. -/
theorem length_balanceLoop_le :
    ∀ fuel (s : BalanceLoop α),
      (balanceLoop T fuel s).localItems.length ≤ s.localItems.length + fillCount T fuel s := by
  intro fuel
  induction fuel with
  | zero => intro s; simp [fillCount, balanceLoop]
  | succ n ih =>
    intro s
    cases h : s.localItems[s.i]? with
    | some itm =>
      simp only [fillCount, balanceLoop, h]
      have := balanceStep_length_le (T := T) s itm
      have := ih (balanceStep T s itm)
      omega
    | none => simp [fillCount, balanceLoop, h]

theorem multiplesIn_eq (hT : 0 < T) (a b : ℚ) :
    multiplesIn T a b = (⌊b / T⌋ - ⌊a / T⌋).toNat := by
  unfold multiplesIn
  rw [Finset.filter_true_of_mem, Int.card_Ioc]
  intro k hk
  obtain ⟨h₁, h₂⟩ := Finset.mem_Ioc.mp hk
  exact ⟨(div_lt_iff₀ hT).mp (Int.floor_lt.mp h₁), (le_div_iff₀ hT).mp (Int.le_floor.mp h₂)⟩

section Run

variable {items : List (Item α)} {P : ℚ}

/-- The state the loop ends in on `balanceFuel`, the one `balanceFlushes` reads. -/
theorem loopInv_final (hw : ∀ itm ∈ items, 0 ≤ itm.weight) (hP : 0 ≤ P) (hT : 0 < T) :
    LoopInv T (P + localWeight items)
      (balanceLoop T (balanceFuel items P T) (balanceInit items P T)) :=
  (loopInv_init items hw hP hT).loop hT _

theorem measure_init_le (hw : ∀ itm ∈ items, 0 ≤ itm.weight) (hP : 0 ≤ P) (hT : 0 < T) :
    (balanceInit items P T).measure T (P + localWeight items) ≤ balanceFuel items P T := by
  have := (loopInv_init items hw hP hT).dest_nonneg
  simp only [BalanceLoop.measure, balanceFuel, balanceInit, ← Int.floor_toNat] at this ⊢
  omega

/-- On `balanceFuel` the loop has read every item, appended ones included. -/
theorem balanceLoop_fuel_done (hw : ∀ itm ∈ items, 0 ≤ itm.weight) (hP : 0 ≤ P) (hT : 0 < T) :
    (balanceLoop T (balanceFuel items P T) (balanceInit items P T)).localItems.length ≤
      (balanceLoop T (balanceFuel items P T) (balanceInit items P T)).i :=
  balanceLoop_done hT _ _ (loopInv_init items hw hP hT) (measure_init_le hw hP hT)

end Run

/-- The splitting loop over a rank's items terminates within `balanceFuel` iterations; it
appends no more items than it fills blocks, and it fills no more blocks than there are
multiples of `T` in `(P, P + L]`. -/
theorem balanceLoop_terminates (items : List (Item α)) (hw : ∀ itm ∈ items, 0 ≤ itm.weight)
    (P T : ℚ) (hP : 0 ≤ P) (hT : 0 < T) :
    (balanceLoop T (balanceFuel items P T) (balanceInit items P T)).localItems.length ≤
        (balanceLoop T (balanceFuel items P T) (balanceInit items P T)).i ∧
      (balanceLoop T (balanceFuel items P T) (balanceInit items P T)).localItems.length -
          items.length ≤ fillCount T (balanceFuel items P T) (balanceInit items P T) ∧
      fillCount T (balanceFuel items P T) (balanceInit items P T) ≤
        multiplesIn T P (P + localWeight items) := by
  have hfill := fillCount_eq (T := T) (balanceFuel items P T) (balanceInit items P T)
  have hlen := length_balanceLoop_le (T := T) (balanceFuel items P T) (balanceInit items P T)
  have hd := (loopInv_final hw hP hT).destRank_le hT
  rw [show (balanceInit items P T).destRank = ⌊P / T⌋ from
    truncToInt_of_nonneg (div_nonneg hP hT.le)] at hfill
  refine ⟨balanceLoop_fuel_done hw hP hT, Nat.sub_le_iff_le_add'.mpr hlen, ?_⟩
  rw [multiplesIn_eq hT]
  omega

/-- One item of weight 5 read from `P = 1` with `T = 2`: it fills blocks 0, 1 and 2 and is
appended once on the way. -/
theorem balanceLoop_terminates_five :
    let items : List (Item ℕ) := [⟨0, 5⟩]
    let final := balanceLoop 2 (balanceFuel items 1 2) (balanceInit items 1 2)
    (∀ itm ∈ items, 0 ≤ itm.weight) ∧ final.localItems.length ≤ final.i ∧
      final.localItems.length - items.length ≤
        fillCount 2 (balanceFuel items 1 2) (balanceInit items 1 2) ∧
      fillCount 2 (balanceFuel items 1 2) (balanceInit items 1 2) ≤
        multiplesIn 2 1 (1 + localWeight items) := by
  intro items final
  have hw : ∀ itm ∈ items, 0 ≤ itm.weight := by simp [items]
  exact ⟨hw, balanceLoop_terminates items hw 1 2 (by norm_num) (by norm_num)⟩

end Termination

/-! ### The first loop's `uint32_t` index -/

section LocalWeight

/-- `for (uint32_t i = 0; i < m_local_items.size(); i++) local_weight += m_local_items[i].weight;`
for at most `fuel` checks of its condition: `i` is widened to `size_t` for the comparison, and
`i++` wraps at `2^32`.  The index and the sum on exit, or `none` while the loop still runs. -/
def localWeightLoop (items : List (Item α)) : ℕ → UInt32 → ℚ → Option (UInt32 × ℚ)
  | 0, _, _ => none
  | fuel + 1, i, sum =>
    if h : i.toNat < items.length then
      localWeightLoop items fuel (i + 1) (sum + items[i.toNat].weight)
    else some (i, sum)

theorem uint32_toNat_succ (i : UInt32) : (i + 1).toNat = (i.toNat + 1) % 2 ^ 32 := by
  simp [UInt32.toNat, UInt32.add_def, BitVec.toNat_add]

/-- Below `2^32` items `i++` never wraps: from index `i` the loop adds the items from `i` on and
exits with its index at `size()`. -/
theorem localWeightLoop_sum (items : List (Item α)) (hlen : items.length < 2 ^ 32) :
    ∀ fuel (i : UInt32) sum, i.toNat ≤ items.length → items.length - i.toNat < fuel →
      ∃ j : UInt32, j.toNat = items.length ∧
        localWeightLoop items fuel i sum = some (j, sum + localWeight (items.drop i.toNat)) := by
  intro fuel
  induction fuel with
  | zero => intro _ _ _ h; omega
  | succ fuel ih =>
    intro i sum hi hfuel
    by_cases h : i.toNat < items.length
    · have hsucc : (i + 1).toNat = i.toNat + 1 := by
        rw [uint32_toNat_succ]; exact Nat.mod_eq_of_lt (by omega)
      obtain ⟨j, hj, hrun⟩ := ih (i + 1) (sum + items[i.toNat].weight) (by omega) (by omega)
      refine ⟨j, hj, ?_⟩
      rw [localWeightLoop, dif_pos h, hrun, hsucc, List.drop_eq_getElem_cons h, localWeight_cons,
        add_assoc]
    · have hi : i.toNat = items.length := by omega
      refine ⟨i, hi, ?_⟩
      rw [localWeightLoop, dif_neg h, hi, List.drop_length, localWeight_nil, add_zero]

/-- So below `2^32` items the loop is `localWeight`: started at `0` it exits after one iteration
per item with the sum of all weights. -/
theorem localWeightLoop_eq_localWeight (items : List (Item α)) (hlen : items.length < 2 ^ 32)
    (fuel : ℕ) (hfuel : items.length < fuel) :
    ∃ j : UInt32, j.toNat = items.length ∧
      localWeightLoop items fuel 0 0 = some (j, localWeight items) := by
  simpa using localWeightLoop_sum items hlen fuel 0 0 (Nat.zero_le _) (by simpa using hfuel)

/-- From `2^32` items on the index, below `2^32` whatever it is, always passes `i < size()`:
the loop runs out of every fuel. -/
theorem localWeightLoop_none (items : List (Item α)) (hlen : 2 ^ 32 ≤ items.length) :
    ∀ fuel (i : UInt32) sum, localWeightLoop items fuel i sum = none := by
  intro fuel
  induction fuel with
  | zero => intro _ _; rfl
  | succ fuel ih =>
    intro i sum
    have h : i.toNat < items.length := lt_of_lt_of_le (UInt32.toNat_lt_size i) hlen
    rw [localWeightLoop, dif_pos h, ih]

/-- `2^32` items of weight 1: the loop never exits. -/
theorem localWeightLoop_replicate_never_exits (fuel : ℕ) :
    localWeightLoop (List.replicate (2 ^ 32) (⟨0, 1⟩ : Item ℕ)) fuel 0 0 = none :=
  localWeightLoop_none _ (by rw [List.length_replicate]) fuel 0 0

end LocalWeight

end Ygm
