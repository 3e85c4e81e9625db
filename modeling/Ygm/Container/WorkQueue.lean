/-
`work_queue::local_process_all`, the drain.

The loop takes the policy's `top`, pops it, and only then calls the work function
on it, so an item the work function `local_insert`s lands behind the one being
processed and is drained by the same loop.  The work function is modelled by what
it does to its own queue: from the user's state and the item it returns the new
state and the items it inserts, in order.  The loop runs for as long as the work
function keeps inserting; `localProcessAll` runs on fuel and answers `none` when
the fuel runs out first.  Each call of the work function is recorded as an
`Invocation`: the contents the loop looked at, the item, and what the call
inserted.  `localProcessSteps` is the first `n` iterations of the same loop,
which a drain has for every `n` whether or not it ever returns; a drain that
returns is its own longest prefix.

Over every run that returns we prove what the drain is for: the queue ends empty,
the work function saw each item of the initial contents and of its own inserts
exactly once, and each time it saw the policy's choice.  From the choices follows
the order over a whole drain: `Comp` order under `priority_policy` when no call
inserts above its own item, over every prefix, and insertion order or its reverse
under FIFO and LIFO when the calls insert nothing.
-/
import Ygm.Container.QueuePolicy
import Mathlib.Algebra.Order.BigOperators.Group.List
import Mathlib.Algebra.Order.Group.Nat
import Mathlib.Algebra.Order.Ring.Nat

namespace Ygm

variable {α σ : Type}

/-- A `work_queue` object's own data: `m_local_queue`, `m_work_lambda` and
`m_callback_registered`.  `W` stands for the values the work lambda can take, its captures
included. -/
structure WorkQueue (α W : Type) where
  localQueue : List α
  workLambda : W
  callbackRegistered : Bool

/-- `local_has_work`. -/
def WorkQueue.localHasWork {W : Type} (q : WorkQueue α W) : Bool := !q.localQueue.isEmpty

/-- `local_size`, what the destructor asserts to be `0`. -/
def WorkQueue.localSize {W : Type} (q : WorkQueue α W) : ℕ := q.localQueue.length

/-- One call of the work function: the queue just before the loop took the item, the item,
and what the call inserted into the same queue. -/
structure Invocation (α : Type) where
  contents : List α
  item : α
  inserted : List α
  deriving Repr

/-- `local_process_all` on the contents `q`: while the queue is not empty, take `top`, `pop`
it, and call the work function, whose inserts go through `QueuePolicy::push`.  The result is
the user's state, the queue and the calls made, or `none` when the fuel runs out. -/
def localProcessAll (P : QueuePolicy α) (work : σ → α → σ × List α) :
    ℕ → σ → List α → Option (σ × List α × List (Invocation α))
  | 0, _, _ => none
  | _ + 1, st, [] => some (st, [], [])
  | fuel + 1, st, a :: l =>
    let item := P.top (a :: l) (List.cons_ne_nil a l)
    let r := work st item
    (localProcessAll P work fuel r.1 (r.2.foldl P.push (P.pop (a :: l)))).map
      fun res => (res.1, res.2.1, ⟨a :: l, item, r.2⟩ :: res.2.2)

example : localProcessAll fifoPolicy (fun (_ : Unit) (i : ℕ) => ((), if i < 1 then [i + 1, i + 2] else []))
    4 () [0] = some ((), [], [⟨[0], 0, [1, 2]⟩, ⟨[1, 2], 1, []⟩, ⟨[2], 2, []⟩]) := rfl

/-- The first `n` iterations of the same loop, or fewer if the queue empties first: the user's
state, the queue and the calls made so far.  A drain that never returns has one of these for
every `n`. -/
def localProcessSteps (P : QueuePolicy α) (work : σ → α → σ × List α) :
    ℕ → σ → List α → σ × List α × List (Invocation α)
  | 0, st, q => (st, q, [])
  | _ + 1, st, [] => (st, [], [])
  | n + 1, st, a :: l =>
    let item := P.top (a :: l) (List.cons_ne_nil a l)
    let r := work st item
    let res := localProcessSteps P work n r.1 (r.2.foldl P.push (P.pop (a :: l)))
    (res.1, res.2.1, ⟨a :: l, item, r.2⟩ :: res.2.2)

section Drain

variable (P : QueuePolicy α) (work : σ → α → σ × List α)

/-- One iteration of the loop on a non-empty queue. -/
theorem localProcessAll_of_ne_nil {fuel : ℕ} {st : σ} {q : List α} (h : q ≠ []) :
    localProcessAll P work (fuel + 1) st q =
      (localProcessAll P work fuel (work st (P.top q h)).1 (P.pop q ++ (work st (P.top q h)).2)).map
        fun res => (res.1, res.2.1, ⟨q, P.top q h, (work st (P.top q h)).2⟩ :: res.2.2) := by
  cases q with
  | nil => exact absurd rfl h
  | cons a l => rw [localProcessAll, QueuePolicy.foldl_push]

theorem localProcessSteps_of_ne_nil {n : ℕ} {st : σ} {q : List α} (h : q ≠ []) :
    localProcessSteps P work (n + 1) st q =
      let res := localProcessSteps P work n (work st (P.top q h)).1
        (P.pop q ++ (work st (P.top q h)).2)
      (res.1, res.2.1, ⟨q, P.top q h, (work st (P.top q h)).2⟩ :: res.2.2) := by
  cases q with
  | nil => exact absurd rfl h
  | cons a l => rw [localProcessSteps, QueuePolicy.foldl_push]

/-- A drain that returns is its own longest prefix: the result is the first `fuel` iterations. -/
theorem localProcessSteps_of_some :
    ∀ {fuel : ℕ} {st : σ} {q : List α} {r : σ × List α × List (Invocation α)},
      localProcessAll P work fuel st q = some r → localProcessSteps P work fuel st q = r
  | 0, _, _, _, hr => by cases hr
  | _ + 1, _, [], _, hr => by cases hr; rfl
  | _ + 1, _, a :: l, _, hr => by
    rw [localProcessAll_of_ne_nil P work (List.cons_ne_nil a l)] at hr
    obtain ⟨res, hres, rfl⟩ := Option.map_eq_some'.mp hr
    rw [localProcessSteps_of_ne_nil P work (List.cons_ne_nil a l), localProcessSteps_of_some hres]

/-- Induction over every prefix of a drain: what holds of any queue with no call made yet and
is carried back over one iteration holds of the calls of the first `n` iterations. -/
theorem localProcessSteps_induction (Q : List α → List (Invocation α) → Prop)
    (hbase : ∀ q, Q q [])
    (hstep : ∀ st q (h : q ≠ []) calls, Q (P.pop q ++ (work st (P.top q h)).2) calls →
      Q q (⟨q, P.top q h, (work st (P.top q h)).2⟩ :: calls)) :
    ∀ n st q, Q q (localProcessSteps P work n st q).2.2
  | 0, _, q => hbase q
  | _ + 1, _, [] => hbase []
  | n + 1, st, a :: l => by
    rw [localProcessSteps_of_ne_nil P work (List.cons_ne_nil a l)]
    exact hstep st _ _ _ (localProcessSteps_induction Q hbase hstep n _ _)

/-- Induction over the runs that return: what holds of the empty queue and is carried back
over one iteration holds of every run that returns, which leaves the queue empty. -/
theorem localProcessAll_induction (Q : List α → List (Invocation α) → Prop) (hnil : Q [] [])
    (hstep : ∀ st q (h : q ≠ []) calls, Q (P.pop q ++ (work st (P.top q h)).2) calls →
      Q q (⟨q, P.top q h, (work st (P.top q h)).2⟩ :: calls)) :
    ∀ fuel st q r, localProcessAll P work fuel st q = some r → r.2.1 = [] ∧ Q q r.2.2 := by
  intro fuel
  induction fuel with
  | zero => intro _ _ _ hr; cases hr
  | succ fuel ih =>
    intro st q r hr
    by_cases h : q = []
    · subst h
      simp only [localProcessAll, Option.some.injEq] at hr
      subst hr
      exact ⟨rfl, hnil⟩
    · rw [localProcessAll_of_ne_nil P work h] at hr
      obtain ⟨res, hres, rfl⟩ := Option.map_eq_some'.mp hr
      obtain ⟨hempty, hQ⟩ := ih _ _ _ hres
      exact ⟨hempty, hstep st q h _ hQ⟩

/-- Every item of the initial contents and of the work function's inserts is processed once. -/
theorem localProcessAll_perm {fuel : ℕ} {st : σ} {q : List α} {r : σ × List α × List (Invocation α)}
    (hr : localProcessAll P work fuel st q = some r) :
    r.2.1 = [] ∧ (r.2.2.map Invocation.item).Perm (q ++ r.2.2.flatMap Invocation.inserted) :=
  localProcessAll_induction P work (fun q calls =>
      (calls.map Invocation.item).Perm (q ++ calls.flatMap Invocation.inserted)) (by simp)
    (fun st q h calls ih => by
      simp only [List.map_cons, List.flatMap_cons, List.append_assoc] at ih ⊢
      exact (ih.cons _).trans (by simpa only [List.cons_append] using (P.pop_perm q h).append_right _))
    fuel st q r hr

/-- Each call received the policy's choice from the contents at that moment. -/
theorem localProcessAll_top {fuel : ℕ} {st : σ} {q : List α} {r : σ × List α × List (Invocation α)}
    (hr : localProcessAll P work fuel st q = some r) :
    ∀ inv ∈ r.2.2, ∃ h, inv.item = P.top inv.contents h :=
  (localProcessAll_induction P work (fun _ calls => ∀ inv ∈ calls, ∃ h, inv.item = P.top inv.contents h)
    (by simp) (fun _ _ h _ ih => List.forall_mem_cons.2 ⟨⟨h, rfl⟩, ih⟩) fuel st q r hr).2

/-- Under `fifo_policy` the items are processed in the order they were inserted. -/
theorem localProcessAll_fifo {fuel : ℕ} {st : σ} {q : List α} {r : σ × List α × List (Invocation α)}
    (hr : localProcessAll fifoPolicy work fuel st q = some r) :
    r.2.2.map Invocation.item = q ++ r.2.2.flatMap Invocation.inserted :=
  (localProcessAll_induction fifoPolicy work (fun q calls =>
      calls.map Invocation.item = q ++ calls.flatMap Invocation.inserted) rfl
    (fun st q h calls ih => by
      cases q with
      | nil => exact absurd rfl h
      | cons a l =>
        simp only [List.map_cons, List.flatMap_cons, ih]
        simp [fifoPolicy])
    fuel st q r hr).2

end Drain

/-! ### When the drain returns -/

/-- A bound on the calls a drain makes when each call inserts at most `b` items, all of lower
`rank` than the item it was called on: an item of rank `k` stands for at most `(b + 1) ^ k`
calls, itself and what it leads to. -/
def drainBound (rank : α → ℕ) (b : ℕ) (q : List α) : ℕ := (q.map fun x => (b + 1) ^ rank x).sum

/-- What one call inserts weighs less than the item it was called on. -/
theorem drainBound_inserted {rank : α → ℕ} {b : ℕ} {x : α} {ins : List α} (hlen : ins.length ≤ b)
    (hlt : ∀ y ∈ ins, rank y < rank x) : drainBound rank b ins < (b + 1) ^ rank x := by
  cases hx : rank x with
  | zero =>
    have hnil : ins = [] := List.eq_nil_iff_forall_not_mem.2 fun y hy => by
      have := hlt y hy; omega
    simp [drainBound, hnil]
  | succ k =>
    have hterm : ∀ n ∈ ins.map fun y => (b + 1) ^ rank y, n ≤ (b + 1) ^ k := by
      simp only [List.mem_map]
      rintro _ ⟨y, hy, rfl⟩
      exact Nat.pow_le_pow_right (by omega) (by have := hlt y hy; omega)
    have hpos : 0 < (b + 1) ^ k := Nat.pos_pow_of_pos k (Nat.succ_pos b)
    calc drainBound rank b ins ≤ ins.length * (b + 1) ^ k := by
          simpa using List.sum_le_card_nsmul _ _ hterm
      _ ≤ b * (b + 1) ^ k := Nat.mul_le_mul_right _ hlen
      _ < (b + 1) ^ (k + 1) := by rw [pow_succ, Nat.mul_add_one, Nat.mul_comm]; omega

/-- The drain returns when each call of the work function inserts at most `b` items, all of
lower rank than the item it was called on: with fuel above `drainBound` it returns, having made
at most `drainBound` calls, since every iteration lowers the bound by at least one. -/
theorem localProcessAll_returns (P : QueuePolicy α) (work : σ → α → σ × List α) (rank : α → ℕ)
    (b : ℕ) (hwork : ∀ st x, (work st x).2.length ≤ b ∧ ∀ y ∈ (work st x).2, rank y < rank x) :
    ∀ fuel st q, drainBound rank b q < fuel →
      ∃ r, localProcessAll P work fuel st q = some r ∧ r.2.2.length ≤ drainBound rank b q := by
  intro fuel
  induction fuel with
  | zero => intro _ _ h; omega
  | succ fuel ih =>
    intro st q hq
    by_cases h : q = []
    · subst h; exact ⟨_, rfl, Nat.zero_le _⟩
    · have htop : drainBound rank b q =
          (b + 1) ^ rank (P.top q h) + drainBound rank b (P.pop q) := by
        simp only [drainBound, ← ((P.pop_perm q h).map _).sum_eq, List.map_cons, List.sum_cons]
      have hins := drainBound_inserted (hwork st (P.top q h)).1 (hwork st (P.top q h)).2
      have hnext : drainBound rank b (P.pop q ++ (work st (P.top q h)).2) =
          drainBound rank b (P.pop q) + drainBound rank b (work st (P.top q h)).2 := by
        simp only [drainBound, List.map_append, List.sum_append]
      obtain ⟨r, hr, hlen⟩ := ih _ (P.pop q ++ (work st (P.top q h)).2) (by omega)
      rw [localProcessAll_of_ne_nil P work h, hr]
      exact ⟨_, rfl, by rw [List.length_cons]; omega⟩

/-- A chain `0, 1, 2` as in the recursive tests: each item below `2` inserts its successor, and
the three calls stay within the bound `(1 + 1) ^ 2`. -/
theorem localProcessAll_returns_chain :
    let work := fun (_ : Unit) (i : ℕ) => ((), if i < 2 then [i + 1] else [])
    (∀ st x, (work st x).2.length ≤ 1 ∧ ∀ y ∈ (work st x).2, 2 - y < 2 - x) ∧
    drainBound (fun i => 2 - i) 1 [0] < 5 ∧
    ∃ r, localProcessAll fifoPolicy work 5 () [0] = some r ∧
      r.2.2.length ≤ drainBound (fun i => 2 - i) 1 [0] := by
  intro work
  have hwork : ∀ st x, (work st x).2.length ≤ 1 ∧ ∀ y ∈ (work st x).2, 2 - y < 2 - x := by
    intro _ x
    simp only [work]
    split_ifs
    · simp only [List.length_singleton, le_refl, List.mem_singleton, forall_eq, true_and]
      omega
    · simp
  exact ⟨hwork, by decide, localProcessAll_returns fifoPolicy work (fun i => 2 - i) 1 hwork 5 () [0]
    (by decide)⟩

/-- A drain that returns processes every item exactly once, in policy order.  Under
`fifo_policy` the items go to the work function in the order they were inserted, the initial
contents first; under `lifo_policy` each call gets the latest item left; under
`priority_policy` each call gets an item no item left is `Comp`-greater than.  Under every
policy the queue is empty on return and the calls' items are the initial contents and the
inserts, each once. -/
theorem localProcessAll_policy_order (c : Compare α) (work : σ → α → σ × List α) (fuel : ℕ)
    (st : σ) (q : List α) :
    (∀ r, localProcessAll fifoPolicy work fuel st q = some r →
      r.2.1 = [] ∧ r.2.2.map Invocation.item = q ++ r.2.2.flatMap Invocation.inserted ∧
        ∀ inv ∈ r.2.2, inv.contents.head? = some inv.item) ∧
    (∀ r, localProcessAll lifoPolicy work fuel st q = some r →
      r.2.1 = [] ∧ (r.2.2.map Invocation.item).Perm (q ++ r.2.2.flatMap Invocation.inserted) ∧
        ∀ inv ∈ r.2.2, inv.contents.getLast? = some inv.item) ∧
    (∀ r, localProcessAll (priorityPolicy c) work fuel st q = some r →
      r.2.1 = [] ∧ (r.2.2.map Invocation.item).Perm (q ++ r.2.2.flatMap Invocation.inserted) ∧
        ∀ inv ∈ r.2.2, inv.item ∈ inv.contents ∧ ∀ y ∈ inv.contents, c.lt inv.item y = false) := by
  refine ⟨fun r hr => ⟨(localProcessAll_perm _ _ hr).1, localProcessAll_fifo _ hr, fun inv hinv => ?_⟩,
    fun r hr => ⟨(localProcessAll_perm _ _ hr).1, (localProcessAll_perm _ _ hr).2, fun inv hinv => ?_⟩,
    fun r hr => ⟨(localProcessAll_perm _ _ hr).1, (localProcessAll_perm _ _ hr).2, fun inv hinv => ?_⟩⟩
  all_goals obtain ⟨h, hitem⟩ := localProcessAll_top _ _ hr inv hinv; rw [hitem]
  exacts [fifoPolicy_top h, lifoPolicy_top h, priorityPolicy_top c h]

/-! ### The order of a whole drain -/

section Order

variable (work : σ → α → σ × List α)

/-- Under `priority_policy`, when no call inserts an item `Comp`-greater than the one it was
called on, the work function sees the items in `Comp` order: none is `Comp`-greater than an
item seen before it.  This holds of every prefix of a drain, so also of a drain that never
returns, and of the whole of a drain that does.  Along the run, whatever lies at or above the
whole queue lies at or above every item still to come. -/
theorem localProcessAll_priority_sorted (c : Compare α)
    (hwork : ∀ st x, ∀ y ∈ (work st x).2, c.lt x y = false) (fuel : ℕ) (st : σ) (q : List α) :
    ((localProcessSteps (priorityPolicy c) work fuel st q).2.2.map Invocation.item).Pairwise
        (fun x y => c.lt x y = false) ∧
      ∀ r, localProcessAll (priorityPolicy c) work fuel st q = some r →
        (r.2.2.map Invocation.item).Pairwise fun x y => c.lt x y = false := by
  have hsteps := (localProcessSteps_induction (priorityPolicy c) work (fun q calls =>
      (calls.map Invocation.item).Pairwise (fun x y => c.lt x y = false) ∧
        ∀ x, (∀ y ∈ q, c.lt x y = false) → ∀ inv ∈ calls, c.lt x inv.item = false)
    (fun _ => ⟨List.Pairwise.nil, fun _ _ _ h => absurd h (List.not_mem_nil _)⟩)
    (fun st q h calls ⟨hsorted, hlater⟩ => by
      obtain ⟨htop, hmax⟩ := priorityPolicy_top c h
      have hnext : ∀ x, (∀ y ∈ q, c.lt x y = false) →
          ∀ y ∈ (priorityPolicy c).pop q ++ (work st ((priorityPolicy c).top q h)).2,
            c.lt x y = false := by
        intro x hx y hy
        rcases List.mem_append.1 hy with hy | hy
        · exact hx y (((priorityPolicy c).pop_perm q h).subset (List.mem_cons_of_mem _ hy))
        · exact c.not_lt_trans (hx _ htop) (hwork st _ y hy)
      refine ⟨List.pairwise_cons.2 ⟨List.forall_mem_map.2 (hlater _ (hnext _ hmax)), hsorted⟩,
        fun x hx => List.forall_mem_cons.2 ⟨hx _ htop, hlater x (hnext x hx)⟩⟩)
    fuel st q).1
  exact ⟨hsteps, fun r hr => localProcessSteps_of_some _ _ hr ▸ hsteps⟩

/-- The recursive test of `priority_policy` under `std::greater` with cutoff `3`: an item
`i < 3` inserts `i + 3 + 1` and then `i + 1`, and the items are seen in ascending order. -/
theorem localProcessAll_priority_sorted_recursive :
    let work := fun (_ : Unit) (i : ℕ) => ((), if i < 3 then [i + 3 + 1, i + 1] else [])
    (∀ st x, ∀ y ∈ (work st x).2, stdGreater.lt x y = false) ∧
    (localProcessAll (priorityPolicy stdGreater) work 8 () [0]).map
      (fun r => r.2.2.map Invocation.item) = some [0, 1, 2, 3, 4, 5, 6] ∧
    ((localProcessSteps (priorityPolicy stdGreater) work 8 () [0]).2.2.map Invocation.item).Pairwise
        (fun x y => stdGreater.lt x y = false) ∧
      ∀ r, localProcessAll (priorityPolicy stdGreater) work 8 () [0] = some r →
        (r.2.2.map Invocation.item).Pairwise fun x y => stdGreater.lt x y = false := by
  intro work
  have hwork : ∀ st x, ∀ y ∈ (work st x).2, stdGreater.lt x y = false := by
    intro _ x y hy
    simp only [stdGreater, decide_eq_false_iff_not, not_lt]
    simp only [work] at hy
    split_ifs at hy
    · simp only [List.mem_cons, List.mem_singleton, List.not_mem_nil, or_false] at hy
      omega
    · exact absurd hy (List.not_mem_nil y)
  exact ⟨hwork, rfl, localProcessAll_priority_sorted work stdGreater hwork 8 () [0]⟩

/-- A drain whose calls insert nothing returns once the fuel exceeds the items, and hands the
work function the items in the order `ord` that the policy's `top` and `pop` unfold to. -/
theorem localProcessAll_no_inserts (P : QueuePolicy α) (hwork : ∀ st x, (work st x).2 = [])
    (ord : List α → List α) (hnil : ord [] = [])
    (hord : ∀ q (h : q ≠ []), ord q = P.top q h :: ord (P.pop q)) :
    ∀ fuel st q, q.length < fuel →
      ∃ r, localProcessAll P work fuel st q = some r ∧ r.2.2.map Invocation.item = ord q := by
  intro fuel
  induction fuel with
  | zero => intro _ _ h; omega
  | succ fuel ih =>
    intro st q hq
    by_cases h : q = []
    · subst h; exact ⟨_, rfl, hnil.symm⟩
    · have hlen := (P.pop_perm q h).length_eq
      rw [List.length_cons] at hlen
      obtain ⟨r, hr, hitems⟩ := ih (work st (P.top q h)).1 (P.pop q) (by omega)
      rw [localProcessAll_of_ne_nil P work h, hwork, List.append_nil, hr]
      exact ⟨_, rfl, by rw [hord q h, ← hitems]; rfl⟩

/-- With a work function that inserts nothing, a drain with more fuel than items returns:
`fifo_policy` hands the work function the items in the order they were inserted, and
`lifo_policy` in the reverse order. -/
theorem localProcessAll_insertion_order (hwork : ∀ st x, (work st x).2 = []) (fuel : ℕ) (st : σ)
    (q : List α) (hfuel : q.length < fuel) :
    (∃ r, localProcessAll fifoPolicy work fuel st q = some r ∧
      r.2.2.map Invocation.item = q) ∧
    (∃ r, localProcessAll lifoPolicy work fuel st q = some r ∧
      r.2.2.map Invocation.item = q.reverse) :=
  ⟨localProcessAll_no_inserts work fifoPolicy hwork id rfl
      (fun q h => (List.head_cons_tail q h).symm) fuel st q hfuel,
    localProcessAll_no_inserts work lifoPolicy hwork List.reverse rfl
      (fun q h => by
        conv_lhs => rw [← List.dropLast_append_getLast h]
        rw [List.reverse_append]; rfl) fuel st q hfuel⟩

/-- The LIFO ordering test: `0, 1, 2, 3` inserted, a work function that only counts down,
and the items come back `3, 2, 1, 0`. -/
theorem localProcessAll_insertion_order_countdown :
    let work := fun (st _ : ℕ) => (st - 1, ([] : List ℕ))
    (∀ st x, (work st x).2 = []) ∧ [0, 1, 2, 3].length < 5 ∧
    (∃ r, localProcessAll fifoPolicy work 5 4 [0, 1, 2, 3] = some r ∧
      r.2.2.map Invocation.item = [0, 1, 2, 3]) ∧
    (∃ r, localProcessAll lifoPolicy work 5 4 [0, 1, 2, 3] = some r ∧
      r.2.2.map Invocation.item = [3, 2, 1, 0]) :=
  ⟨fun _ _ => rfl, by decide,
    localProcessAll_insertion_order _ (fun _ _ => rfl) 5 4 [0, 1, 2, 3] (by decide)⟩

end Order

end Ygm
