/-
What one rank's balancer sends to each block.

The loop of `Random/Balance.lean` stands at `position = dest_rank·T +
curr_weight` on the weight line and has sent, or holds in `items_to_send`, the
weight between where it started and where it stands.  `OverlapInv` says how that
weight is spread over the blocks: block `d` has received exactly the part of
`[P, position)` that lies in `[d·T, (d+1)·T)`.  When the loop is done the
position is `P + L`, and after the final flush block `d` holds the overlap of
`[P, P + L)` with its own interval.  A block at or above `N` overlaps nothing
when `P + L ≤ N·T`, so the batches the `dest_rank < m_comm.size()` guards drop
weigh nothing.

Beside it run two simpler invariants: every fragment weighs something
non-negative and goes to a rank `≥ 0`, and every id keeps its weight — what
was sent, what is held, and what is still unread add up to the input.
-/
import Ygm.Random.Balance

namespace Ygm

variable {α : Type}

/-! ### Batches addressed to one rank -/

@[simp] theorem collect_nil (d : ℤ) : collect ([] : List (ℤ × List (Item α))) d = [] := rfl

@[simp] theorem collect_cons (m : ℤ × List (Item α)) (l : List (ℤ × List (Item α))) (d : ℤ) :
    collect (m :: l) d = (if m.1 = d then m.2 else []) ++ collect l d := by
  by_cases h : m.1 = d <;> simp [collect, List.filter_cons, h]

@[simp] theorem collect_append (l₁ l₂ : List (ℤ × List (Item α))) (d : ℤ) :
    collect (l₁ ++ l₂) d = collect l₁ d ++ collect l₂ d := by
  simp [collect, List.filter_append, List.flatMap_append]

theorem collect_perm {l₁ l₂ : List (ℤ × List (Item α))} (h : l₁.Perm l₂) (d : ℤ) :
    (collect l₁ d).Perm (collect l₂ d) :=
  (h.filter _).flatMap_right _

/-- Dropping batches for other ranks changes nothing for `d`. -/
theorem collect_filter_of_pos (l : List (ℤ × List (Item α))) (p : ℤ × List (Item α) → Bool)
    {d : ℤ} (hp : ∀ m ∈ l, m.1 = d → p m = true) : collect (l.filter p) d = collect l d := by
  induction l with
  | nil => rfl
  | cons m l ih =>
    simp only [List.mem_cons, forall_eq_or_imp] at hp
    by_cases hm : m.1 = d
    · simp [List.filter_cons, hp.1 hm, hm, ih hp.2]
    · by_cases hpm : p m = true <;> simp [List.filter_cons, hpm, hm, ih hp.2]

/-! ### Blocks of the weight line -/

/-- `y` pushed into block `d`, `[d·T, (d+1)·T]`. -/
def blockClamp (T : ℚ) (d : ℤ) (y : ℚ) : ℚ := clamp (d * T) ((d + 1) * T) y

section Blocks

variable {T : ℚ}

/-- A point of block `e` lies above every block below `e` and below every block above it. -/
theorem blockClamp_of_mem (hT : 0 < T) {e : ℤ} {y : ℚ} (h₁ : e * T ≤ y) (h₂ : y ≤ (e + 1) * T)
    (d : ℤ) : blockClamp T d y = if d < e then (d + 1) * T else if d = e then y else d * T := by
  have hblock : (d : ℚ) * T ≤ (d + 1) * T := by linarith
  unfold blockClamp
  split_ifs with hlt heq
  · have : ((d : ℚ) + 1) ≤ e := by exact_mod_cast hlt
    exact clamp_of_ge hblock ((mul_le_mul_of_nonneg_right this hT.le).trans h₁)
  · subst heq; exact clamp_of_mem h₁ h₂
  · have : (e : ℚ) + 1 ≤ d := by exact_mod_cast (show e + 1 ≤ d by omega)
    exact clamp_of_le (h₂.trans (mul_le_mul_of_nonneg_right this hT.le))

/-- Moving inside block `e` moves only block `e`'s clamp. -/
theorem blockClamp_sub_within (hT : 0 < T) {e : ℤ} {y z : ℚ} (h₁ : e * T ≤ y) (h₂ : y ≤ z)
    (h₃ : z ≤ (e + 1) * T) (d : ℤ) :
    blockClamp T d z - blockClamp T d y = if e = d then z - y else 0 := by
  rw [blockClamp_of_mem hT (h₁.trans h₂) h₃, blockClamp_of_mem hT h₁ (h₂.trans h₃)]
  split_ifs <;> first | (exfalso; omega) | ring

/-- Crossing from block `e` into block `e + 1` fills the rest of `e` and starts `e + 1`. -/
theorem blockClamp_sub_cross (hT : 0 < T) {e : ℤ} {y z : ℚ} (h₁ : e * T ≤ y)
    (h₂ : y ≤ (e + 1) * T) (h₃ : (e + 1) * T ≤ z) (h₄ : z ≤ (e + 1 + 1) * T) (d : ℤ) :
    blockClamp T d z - blockClamp T d y =
      (if e = d then (e + 1) * T - y else 0) + if e + 1 = d then z - (e + 1) * T else 0 := by
  rw [blockClamp_of_mem (e := e + 1) hT (by push_cast; linarith) (by push_cast; linarith),
    blockClamp_of_mem hT h₁ h₂]
  obtain hd | rfl | rfl | hd : d < e ∨ d = e ∨ d = e + 1 ∨ e + 1 < d := by omega
  all_goals simp (disch := omega) only [if_pos, if_neg]; push_cast; ring

end Blocks

/-! ### Where the weight the loop has passed went -/

/-- What block `d` has been sent so far, counting what `items_to_send` holds for it. -/
def BalanceLoop.assigned (d : ℤ) (s : BalanceLoop α) : ℚ :=
  localWeight (collect s.flushed d) + if s.destRank = d then localWeight s.itemsToSend else 0

/-- Block `d` has received the part of `[P, position)` inside it. -/
def OverlapInv (T P : ℚ) (s : BalanceLoop α) : Prop :=
  ∀ d, s.assigned d = blockClamp T d (s.position T) - blockClamp T d P

section Overlap

variable {T E P : ℚ} {s : BalanceLoop α} {itm : Item α}

theorem assigned_pour (h : s.currWeight + itm.weight < T) (d : ℤ) :
    (balanceStep T s itm).assigned d = s.assigned d + if s.destRank = d then itm.weight else 0 := by
  rw [balanceStep_pour h]
  simp only [BalanceLoop.assigned, localWeight_append, localWeight_cons, localWeight_nil]
  split_ifs <;> ring

/-- A block filled: the rest of block `dest_rank` is sent, and the carry opens the next. -/
theorem assigned_fill (hT : 0 < T) (h : T ≤ s.currWeight + itm.weight) (d : ℤ) :
    (balanceStep T s itm).assigned d =
      s.assigned d + (if s.destRank = d then T - s.currWeight else 0) +
        if s.destRank + 1 = d then (balanceStep T s itm).currWeight else 0 := by
  rcases lt_or_le (s.currWeight + itm.weight - T) T with hr | hr
  · rw [balanceStep_spill h hr]
    simp only [BalanceLoop.assigned, collect_append, collect_cons, collect_nil, List.append_nil,
      localWeight_append, localWeight_carry]
    split_ifs <;> (simp only [localWeight_append, localWeight_cons, localWeight_nil]; ring)
  · rw [balanceStep_span hT.le hr]
    simp only [BalanceLoop.assigned, collect_append, collect_cons, collect_nil, List.append_nil,
      localWeight_append]
    split_ifs <;> (simp only [localWeight_append, localWeight_cons, localWeight_nil]; ring)

theorem OverlapInv.step (hT : 0 < T) (hs : LoopInv T E s) (ho : OverlapInv T P s)
    (h : s.localItems[s.i]? = some itm) : OverlapInv T P (balanceStep T s itm) := by
  have hw : 0 ≤ itm.weight := hs.items_nonneg itm (List.getElem?_mem h)
  have hc₀ := hs.curr_nonneg
  have hc₁ := hs.curr_lt
  have hs' := hs.step hT h
  intro d
  rcases lt_or_le (s.currWeight + itm.weight) T with hc | hc
  · have hmove := blockClamp_sub_within hT (e := s.destRank) (y := s.position T)
      (z := (balanceStep T s itm).position T) (by simp [BalanceLoop.position, hc₀])
      (by simp only [BalanceLoop.position, balanceStep_pour hc]; linarith)
      (by simp only [BalanceLoop.position, balanceStep_pour hc]; linarith) d
    rw [assigned_pour hc, ho d]
    simp only [BalanceLoop.position, balanceStep_pour hc] at hmove ⊢
    split_ifs at hmove ⊢ <;> linarith
  · have hdest : (balanceStep T s itm).destRank = s.destRank + 1 := by
      simp [balanceStep_destRank, hc]
    have hmove := blockClamp_sub_cross hT (e := s.destRank) (y := s.position T)
      (z := (balanceStep T s itm).position T) (by simp [BalanceLoop.position, hc₀])
      (by simp only [BalanceLoop.position]; linarith)
      (by simp only [BalanceLoop.position, hdest]; push_cast; linarith [hs'.curr_nonneg])
      (by simp only [BalanceLoop.position, hdest]; push_cast; linarith [hs'.curr_lt]) d
    rw [assigned_fill hT hc, ho d]
    simp only [BalanceLoop.position, hdest] at hmove ⊢
    push_cast at hmove ⊢
    split_ifs at hmove ⊢ <;> linarith

theorem position_init (items : List (Item α)) (P T : ℚ) :
    (balanceInit items P T).position T = P := by
  simp [BalanceLoop.position, balanceInit, fmod]

theorem overlapInv_init (items : List (Item α)) (P T : ℚ) :
    OverlapInv T P (balanceInit items P T) := by
  intro d
  rw [position_init, sub_self]
  simp [BalanceLoop.assigned, balanceInit]

end Overlap

/-! ### Fragments and ids -/

/-- Every batch goes to a rank `≥ 0`, and no fragment weighs less than nothing. -/
structure SendInv (s : BalanceLoop α) : Prop where
  flushed_ok : ∀ m ∈ s.flushed, 0 ≤ m.1 ∧ ∀ itm ∈ m.2, 0 ≤ itm.weight
  toSend_nonneg : ∀ itm ∈ s.itemsToSend, 0 ≤ itm.weight

/-- Every fragment, read or unread, held or sent, carries the id of an input item. -/
structure IdInv (items : List (Item α)) (s : BalanceLoop α) : Prop where
  local_ids : ∀ y ∈ s.localItems, y.id ∈ items.map Item.id
  toSend_ids : ∀ y ∈ s.itemsToSend, y.id ∈ items.map Item.id
  flushed_ids : ∀ m ∈ s.flushed, ∀ y ∈ m.2, y.id ∈ items.map Item.id

/-- What was sent, what is held and what is still unread give every id its input weight. -/
def MassInv [DecidableEq α] (items : List (Item α)) (s : BalanceLoop α) : Prop :=
  ∀ x, massOf x (s.flushed.flatMap Prod.snd) + massOf x s.itemsToSend +
    massOf x (s.localItems.drop s.i) = massOf x items

section Fragments

variable {T E : ℚ} {s : BalanceLoop α} {itm : Item α}

theorem SendInv.step (hT : 0 < T) (hs : LoopInv T E s) (hf : SendInv s)
    (h : s.localItems[s.i]? = some itm) : SendInv (balanceStep T s itm) := by
  have hw : 0 ≤ itm.weight := hs.items_nonneg itm (List.getElem?_mem h)
  have hs' := hs.step hT h
  have hbatch : ∀ m ∈ s.flushed ++
      [(s.destRank, s.itemsToSend ++ [⟨itm.id, itm.weight - (s.currWeight + itm.weight - T)⟩])],
      0 ≤ m.1 ∧ ∀ itm ∈ m.2, 0 ≤ itm.weight := by
    simp only [List.mem_append, List.mem_singleton]
    rintro m (hm | rfl)
    · exact hf.flushed_ok m hm
    · refine ⟨hs.dest_nonneg, ?_⟩
      simp only [List.mem_append, List.mem_singleton]
      rintro x (hx | rfl)
      · exact hf.toSend_nonneg x hx
      · simp only; linarith [hs.curr_lt]
  rcases balanceStep_cases T s itm with hc | ⟨hc, hr⟩ | hr
  · rw [balanceStep_pour hc]
    refine ⟨hf.flushed_ok, ?_⟩
    simp only [List.mem_append, List.mem_singleton]
    rintro x (hx | rfl)
    exacts [hf.toSend_nonneg x hx, hw]
  · have hcarry := hs'.curr_nonneg
    rw [balanceStep_spill hc hr] at hcarry ⊢
    refine ⟨hbatch, ?_⟩
    split_ifs <;> simp [hcarry]
  · rw [balanceStep_span hT.le hr]
    exact ⟨hbatch, by simp⟩

theorem sendInv_init (items : List (Item α)) (P T : ℚ) : SendInv (balanceInit items P T) :=
  ⟨by simp [balanceInit], by simp [balanceInit]⟩

/-- A step adds only fragments of the item it reads, so only ids already there. -/
theorem IdInv.step {items : List (Item α)} (hi : IdInv items s)
    (h : s.localItems[s.i]? = some itm) : IdInv items (balanceStep T s itm) := by
  have hid : itm.id ∈ items.map Item.id := hi.local_ids itm (List.getElem?_mem h)
  have hcarry : ∀ c : ℚ, ∀ y ∈ (if c ≠ 0 then [(⟨itm.id, c⟩ : Item α)] else []),
      y.id ∈ items.map Item.id := by
    intro c y hy
    split_ifs at hy
    · rw [List.mem_singleton.mp hy]; exact hid
    · exact absurd hy (List.not_mem_nil y)
  unfold balanceStep
  by_cases hfill : s.currWeight + itm.weight ≥ T
  · rw [if_pos hfill]
    refine ⟨?_, hcarry _, List.forall_mem_append.2 ⟨hi.flushed_ids, List.forall_mem_singleton.2
      (List.forall_mem_append.2 ⟨hi.toSend_ids, List.forall_mem_singleton.2 hid⟩)⟩⟩
    dsimp only
    split
    · exact List.forall_mem_append.2 ⟨hi.local_ids, List.forall_mem_singleton.2 hid⟩
    · exact hi.local_ids
  · rw [if_neg hfill]
    exact ⟨hi.local_ids, List.forall_mem_append.2 ⟨hi.toSend_ids, List.forall_mem_singleton.2 hid⟩,
      hi.flushed_ids⟩

theorem idInv_init (items : List (Item α)) (P T : ℚ) : IdInv items (balanceInit items P T) :=
  ⟨fun _ => List.mem_map_of_mem Item.id, by simp [balanceInit], by simp [balanceInit]⟩

variable [DecidableEq α]

theorem massOf_carry (x id : α) (c : ℚ) :
    massOf x (if c ≠ 0 then [(⟨id, c⟩ : Item α)] else []) = if id = x then c else 0 := by
  split_ifs <;> simp_all

theorem MassInv.step (hT : 0 < T) {items : List (Item α)} (hm : MassInv items s)
    (h : s.localItems[s.i]? = some itm) : MassInv items (balanceStep T s itm) := by
  intro x
  have hx := hm x
  rw [drop_eq_cons_of_getElem? h, massOf_cons] at hx
  rcases balanceStep_cases T s itm with hc | ⟨hc, hr⟩ | hr
  · rw [balanceStep_pour hc]
    simp only [massOf_append, massOf_cons, massOf_nil] at hx ⊢
    linarith
  · rw [balanceStep_spill hc hr]
    simp only [List.flatMap_append, massOf_append, massOf_carry, List.flatMap_cons,
      List.flatMap_nil, List.append_nil, massOf_cons, massOf_nil] at hx ⊢
    split_ifs at hx ⊢ <;> linarith
  · rw [balanceStep_span hT.le hr]
    have hle : s.i + 1 ≤ s.localItems.length := lt_length_of_getElem? h
    simp only [List.flatMap_append, massOf_append, List.flatMap_cons, List.flatMap_nil,
      List.append_nil, massOf_cons, massOf_nil, List.drop_append_of_le_length hle] at hx ⊢
    split_ifs at hx ⊢ <;> linarith

theorem massInv_init (items : List (Item α)) (P T : ℚ) :
    MassInv items (balanceInit items P T) := by
  intro x
  simp [balanceInit]

end Fragments

/-! ### The batches of a whole run -/

section Run

variable {items : List (Item α)} {P T : ℚ}

/-- Everything the run keeps, in one place, for the state `balanceFlushes` reads. -/
theorem final_invariants (hw : ∀ itm ∈ items, 0 ≤ itm.weight) (hP : 0 ≤ P) (hT : 0 < T) :
    LoopInv T (P + localWeight items)
        (balanceLoop T (balanceFuel items P T) (balanceInit items P T)) ∧
      OverlapInv T P (balanceLoop T (balanceFuel items P T) (balanceInit items P T)) ∧
      SendInv (balanceLoop T (balanceFuel items P T) (balanceInit items P T)) :=
  balanceLoop_induction (fun s => LoopInv T (P + localWeight items) s ∧ OverlapInv T P s ∧ SendInv s)
    (fun _ _ h ⟨hs, ho, hf⟩ => ⟨hs.step hT h, ho.step hT hs h, hf.step hT hs h⟩) _ _
    ⟨loopInv_init items hw hP hT, overlapInv_init items P T, sendInv_init items P T⟩

/-- The loop's end stands at `P + L`: nothing is left unread. -/
theorem position_final (hw : ∀ itm ∈ items, 0 ≤ itm.weight) (hP : 0 ≤ P) (hT : 0 < T) :
    (balanceLoop T (balanceFuel items P T) (balanceInit items P T)).position T =
      P + localWeight items := by
  have hE := (loopInv_final hw hP hT).position_add_pending
  have hdone := balanceLoop_fuel_done hw hP hT
  rw [BalanceLoop.pending, List.drop_eq_nil_of_le hdone, localWeight_nil, add_zero] at hE
  exact hE

theorem collect_balanceFlushes (d : ℤ) :
    localWeight (collect (balanceFlushes items P T) d) =
      (balanceLoop T (balanceFuel items P T) (balanceInit items P T)).assigned d := by
  simp only [balanceFlushes, collect_append, localWeight_append, BalanceLoop.assigned]
  split_ifs <;> simp_all

/-- Block `d` receives from the rank exactly its overlap with the rank's interval. -/
theorem balanceFlushes_weight (hw : ∀ itm ∈ items, 0 ≤ itm.weight) (hP : 0 ≤ P) (hT : 0 < T)
    (d : ℤ) :
    localWeight (collect (balanceFlushes items P T) d) =
      overlap P (P + localWeight items) (d * T) ((d + 1) * T) := by
  rw [collect_balanceFlushes, (final_invariants hw hP hT).2.1 d, position_final hw hP hT,
    overlap_eq_clamp_sub (le_add_of_nonneg_right (localWeight_nonneg hw)) (by linarith)]
  rfl

theorem balanceFlushes_ok (hw : ∀ itm ∈ items, 0 ≤ itm.weight) (hP : 0 ≤ P) (hT : 0 < T) :
    ∀ m ∈ balanceFlushes items P T, 0 ≤ m.1 ∧ ∀ itm ∈ m.2, 0 ≤ itm.weight := by
  have hf := (final_invariants hw hP hT).2.2
  have hd := (loopInv_final hw hP hT).dest_nonneg
  simp only [balanceFlushes, List.mem_append]
  rintro m (hm | hm)
  · exact hf.flushed_ok m hm
  · split_ifs at hm with hlen
    · simp only [List.mem_singleton] at hm
      subst hm
      exact ⟨hd, hf.toSend_nonneg⟩
    · simp at hm

/-- No batch carries an id the rank's input does not have. -/
theorem balanceFlushes_ids : ∀ m ∈ balanceFlushes items P T, ∀ itm ∈ m.2, itm.id ∈ items.map Item.id := by
  have hi := balanceLoop_induction (IdInv items) (fun _ _ h hi => hi.step (T := T) h)
    (balanceFuel items P T) _ (idInv_init items P T)
  intro m hm
  simp only [balanceFlushes, List.mem_append] at hm
  rcases hm with hm | hm
  · exact hi.flushed_ids m hm
  · split_ifs at hm
    · rw [List.mem_singleton.mp hm]
      exact hi.toSend_ids
    · exact absurd hm (List.not_mem_nil m)

theorem massOf_balanceFlushes [DecidableEq α] (hw : ∀ itm ∈ items, 0 ≤ itm.weight) (hP : 0 ≤ P)
    (hT : 0 < T) (x : α) :
    massOf x ((balanceFlushes items P T).flatMap Prod.snd) = massOf x items := by
  have hm := balanceLoop_induction (MassInv items) (fun _ _ h hm => hm.step hT h)
    (balanceFuel items P T) _ (massInv_init items P T) x
  rw [List.drop_eq_nil_of_le (balanceLoop_fuel_done hw hP hT), massOf_nil, add_zero] at hm
  simp only [balanceFlushes, List.flatMap_append, massOf_append]
  split_ifs with hlen
  · simpa using hm
  · simp only [gt_iff_lt, List.length_pos, not_not] at hlen
    simpa [hlen] using hm

end Run

/-! ### What passes the guards -/

theorem mem_collect {l : List (ℤ × List (Item α))} {d : ℤ} {itm : Item α} :
    itm ∈ collect l d ↔ ∃ m ∈ l, m.1 = d ∧ itm ∈ m.2 := by
  simp [collect, and_assoc]

theorem overlap_eq_zero_of_le {a b c e : ℚ} (h : b ≤ c) : overlap a b c e = 0 :=
  max_eq_left (by linarith [min_le_left b e, le_max_right a c])

/-- Batches whose items weigh nothing add no id any weight. -/
theorem massOf_filter_of_dropped [DecidableEq α] (l : List (ℤ × List (Item α)))
    (p : ℤ × List (Item α) → Bool) (h : ∀ m ∈ l, p m = false → ∀ itm ∈ m.2, itm.weight = 0)
    (x : α) : massOf x ((l.filter p).flatMap Prod.snd) = massOf x (l.flatMap Prod.snd) := by
  induction l with
  | nil => rfl
  | cons m l ih =>
    simp only [List.mem_cons, forall_eq_or_imp] at h
    by_cases hp : p m = true
    · simp [List.filter_cons, hp, ih h.2]
    · simp [List.filter_cons, hp, ih h.2, massOf_eq_zero x (h.1 (by simpa using hp))]

section Guards

variable {N : ℕ} {items : List (Item α)} {P T : ℚ}

/-- A batch for a rank at or above `N` weighs nothing when the rank's interval ends by `N·T`. -/
theorem balanceFlushes_dropped (hw : ∀ itm ∈ items, 0 ≤ itm.weight) (hP : 0 ≤ P) (hT : 0 < T)
    (hE : P + localWeight items ≤ N * T) :
    ∀ m ∈ balanceFlushes items P T, N ≤ m.1 → ∀ itm ∈ m.2, itm.weight = 0 := by
  intro m hm hN itm hitm
  have hz : localWeight (collect (balanceFlushes items P T) m.1) = 0 := by
    rw [balanceFlushes_weight hw hP hT]
    exact overlap_eq_zero_of_le
      (hE.trans (mul_le_mul_of_nonneg_right (by exact_mod_cast hN) hT.le))
  refine weight_eq_zero_of_localWeight (fun y hy => ?_) hz itm (mem_collect.mpr ⟨m, hm, rfl, hitm⟩)
  obtain ⟨m', hm', -, hy'⟩ := mem_collect.mp hy
  exact (balanceFlushes_ok hw hP hT m' hm').2 y hy'

theorem balanceSends_dest : ∀ m ∈ balanceSends N items P T, m.1 < N := by
  intro m hm
  simpa using (List.mem_filter.mp hm).2

theorem balanceSends_nonneg (hw : ∀ itm ∈ items, 0 ≤ itm.weight) (hP : 0 ≤ P) (hT : 0 < T) :
    ∀ m ∈ balanceSends N items P T, 0 ≤ m.1 ∧ ∀ itm ∈ m.2, 0 ≤ itm.weight :=
  fun m hm => balanceFlushes_ok hw hP hT m (List.mem_filter.mp hm).1

/-- What a rank sends carries every id's weight: the guards drop only weightless batches. -/
theorem massOf_balanceSends [DecidableEq α] (hw : ∀ itm ∈ items, 0 ≤ itm.weight) (hP : 0 ≤ P)
    (hT : 0 < T) (hE : P + localWeight items ≤ N * T) (x : α) :
    massOf x ((balanceSends N items P T).flatMap Prod.snd) = massOf x items := by
  rw [balanceSends, massOf_filter_of_dropped _ _ (fun m hm hp => balanceFlushes_dropped hw hP hT hE
    m hm (by simpa using hp)), massOf_balanceFlushes hw hP hT]

/-- Block `d < N` receives weight only from the batches that pass the guard for `d`. -/
theorem collect_balanceSends {d : ℤ} (hd : d < N) :
    collect (balanceSends N items P T) d = collect (balanceFlushes items P T) d :=
  collect_filter_of_pos _ _ fun m _ h => by simp [h, hd]

end Guards

/-- Each rank sends every destination `d < N` exactly the overlap of its interval `[P, P + L)`
with `[d·T, (d+1)·T)`, and every batch the `dest_rank < N` guards keep back weighs nothing. -/
theorem balanceSends_overlap (N : ℕ) (items : List (Item α)) (hw : ∀ itm ∈ items, 0 ≤ itm.weight)
    (P T : ℚ) (hP : 0 ≤ P) (hT : 0 < T) (hE : P + localWeight items ≤ N * T) :
    (∀ d : ℕ, d < N → localWeight (collect (balanceSends N items P T) d) =
        overlap P (P + localWeight items) (d * T) ((d + 1) * T)) ∧
      ∀ m ∈ balanceFlushes items P T, N ≤ m.1 → ∀ itm ∈ m.2, itm.weight = 0 := by
  refine ⟨fun d hd => ?_, balanceFlushes_dropped hw hP hT hE⟩
  rw [collect_balanceSends (by exact_mod_cast hd), balanceFlushes_weight hw hP hT]
  push_cast
  rfl

/-- Rank 1 of two with `P = 1`, one item of weight 5 and `T = 3`: its interval `[1, 6)` ends
exactly at `N·T`. -/
theorem balanceSends_overlap_five :
    let items : List (Item ℕ) := [⟨0, 5⟩]
    (∀ itm ∈ items, 0 ≤ itm.weight) ∧ 1 + localWeight items ≤ 2 * 3 ∧
      (∀ d : ℕ, d < 2 → localWeight (collect (balanceSends 2 items 1 3) d) =
          overlap 1 (1 + localWeight items) (d * 3) ((d + 1) * 3)) ∧
        ∀ m ∈ balanceFlushes items 1 3, 2 ≤ m.1 → ∀ itm ∈ m.2, itm.weight = 0 := by
  intro items
  have hw : ∀ itm ∈ items, 0 ≤ itm.weight := by simp [items]
  have hE : 1 + localWeight items ≤ 2 * 3 := by norm_num [items]
  exact ⟨hw, hE, balanceSends_overlap 2 items hw 1 3 (by norm_num) (by norm_num)
    (by exact_mod_cast hE)⟩

/-! ### One batch per destination -/

section Destinations

theorem balanceStep_flushed {T : ℚ} (s : BalanceLoop α) (itm : Item α) :
    (balanceStep T s itm).flushed = s.flushed ++
      if s.currWeight + itm.weight ≥ T then
        [(s.destRank, s.itemsToSend ++ [⟨itm.id, itm.weight - (s.currWeight + itm.weight - T)⟩])]
      else [] := by
  unfold balanceStep; split <;> simp [*]

/-- The batches so far went to `d₀` and the ranks after it in turn, and `dest_rank` stands one
past the last of them. -/
def DestsInv (d₀ : ℤ) (s : BalanceLoop α) : Prop :=
  s.flushed.map Prod.fst = (List.range s.flushed.length).map (fun j : ℕ => d₀ + (j : ℤ)) ∧
    s.destRank = d₀ + s.flushed.length

theorem DestsInv.step {T : ℚ} {d₀ : ℤ} {s : BalanceLoop α} (itm : Item α) (hs : DestsInv d₀ s) :
    DestsInv d₀ (balanceStep T s itm) := by
  obtain ⟨hmap, hdest⟩ := hs
  rw [DestsInv, balanceStep_flushed, balanceStep_destRank]
  split_ifs
  · simp only [List.map_append, List.map_singleton, List.length_append, List.length_singleton,
      List.range_succ, hmap, hdest, Nat.cast_add, Nat.cast_one, add_assoc, and_self]
  · simp only [List.append_nil, add_zero, hmap, hdest, and_self]

/-- One rank's batches go to consecutive ranks: the first to `dest_rank`'s starting value, each
next one to the rank after.  So each rank below `m_comm.size()` is sent at most one batch. -/
theorem balanceFlushes_consecutive (N : ℕ) (items : List (Item α)) (P T : ℚ) :
    (balanceFlushes items P T).map Prod.fst =
      (List.range (balanceFlushes items P T).length).map (fun j : ℕ => truncToInt (P / T) + j) ∧
    ((balanceSends N items P T).map Prod.fst).Nodup := by
  have hcons : (balanceFlushes items P T).map Prod.fst =
      (List.range (balanceFlushes items P T).length).map (fun j : ℕ => truncToInt (P / T) + j) := by
    obtain ⟨hmap, hdest⟩ := balanceLoop_induction (T := T) (DestsInv (truncToInt (P / T)))
      (fun _ itm _ hs => hs.step itm) (balanceFuel items P T) (balanceInit items P T)
      ⟨rfl, by simp [balanceInit]⟩
    dsimp only [balanceFlushes]
    split_ifs
    · simp only [List.map_append, List.map_singleton, List.length_append, List.length_singleton,
        List.range_succ, hmap, hdest]
    · simp only [List.append_nil, hmap]
  refine ⟨hcons, ((List.filter_sublist _).map Prod.fst).nodup ?_⟩
  rw [hcons]
  exact (List.nodup_range _).map fun a b h => by simpa using h

end Destinations

end Ygm
