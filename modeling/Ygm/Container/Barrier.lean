/-
The barrier protocol of `work_queue`, over every interleaving.

`register_processing_callback` hands the communicator a pre-barrier callback bound
to the object it captured as `this`, and sets `m_callback_registered`.  The
barrier runs the pending callbacks; each runs `local_process_all` on its object
and then clears the object's flag.  While a callback drains, its work function
may insert into any queue, clear or move queues and send messages, and message
handlers may run and insert; the world below lets any of these happen between any
two iterations of any drain.  The communicator is outside the repository: the
world keeps only what the protocol reads of it, the pending callbacks, the
draining ones and the messages in flight.

The invariant, `Covered`: an object with items, or with its flag set, has a
callback bound to it that is pending or draining it.  Every step keeps it, so it
holds of every reachable world.  When the barrier returns nothing is pending,
draining or in flight, so every queue is empty with its flag clear, and the
destructor's `local_size() == 0` after its barrier holds.  The barrier's own steps
also keep every item: one moves an item from a message to a queue or from a queue to
a call of a work function (`BarrierStep.held_perm`); `Container/Ledger.lean` adds up
those steps with everything else a run does.

The two moves differ in one field.  The move constructor takes the source's work
function; the move assignment keeps the destination's own, so every barrier after it
drains the items it took over with the function the destination was built with.
-/
import Ygm.Container.WorkQueue
import Mathlib.Logic.Function.Basic
import Mathlib.Logic.Relation

namespace Ygm

variable {α W : Type}

/-- What the barrier protocol reads, over all ranks: the `work_queue` objects by id, the
callbacks registered with the communicator (each bound to the object it captured), the
callbacks now draining, the messages in flight (each inserts an item into an object when its
handler runs), and the calls of work functions made so far. -/
@[ext] structure World (α W : Type) where
  queues : ℕ → WorkQueue α W
  pending : List ℕ
  draining : List ℕ
  inFlight : List (ℕ × α)
  invoked : List (W × α)

namespace World

/-- No object built yet, nothing registered, nothing in flight. -/
def init (f : W) : World α W := ⟨fun _ => ⟨[], f, false⟩, [], [], [], []⟩

/-- Replace object `o`. -/
def setQueue (w : World α W) (o : ℕ) (q : WorkQueue α W) : World α W :=
  { w with queues := Function.update w.queues o q }

@[simp] theorem setQueue_queues (w : World α W) (o : ℕ) (q : WorkQueue α W) (p : ℕ) :
    (w.setQueue o q).queues p = if p = o then q else w.queues p :=
  Function.update_apply _ _ _ _

@[simp] theorem setQueue_pending (w : World α W) (o : ℕ) (q : WorkQueue α W) :
    (w.setQueue o q).pending = w.pending := rfl

@[simp] theorem setQueue_draining (w : World α W) (o : ℕ) (q : WorkQueue α W) :
    (w.setQueue o q).draining = w.draining := rfl

@[simp] theorem setQueue_inFlight (w : World α W) (o : ℕ) (q : WorkQueue α W) :
    (w.setQueue o q).inFlight = w.inFlight := rfl

@[simp] theorem setQueue_invoked (w : World α W) (o : ℕ) (q : WorkQueue α W) :
    (w.setQueue o q).invoked = w.invoked := rfl

theorem setQueue_setQueue (w : World α W) (o : ℕ) (q q' : WorkQueue α W) :
    (w.setQueue o q).setQueue o q' = w.setQueue o q' := by
  simp [setQueue, Function.update_idem]

theorem setQueue_self (w : World α W) (o : ℕ) : w.setQueue o (w.queues o) = w := by
  simp [setQueue]

/-! ### The operations -/

/-- `register_processing_callback`: a callback bound to `o` joins the communicator's list and
`o`'s flag is set. -/
def registerProcessingCallback (w : World α W) (o : ℕ) : World α W :=
  { w.setQueue o { w.queues o with callbackRegistered := true } with pending := w.pending ++ [o] }

/-- `work_queue(comm, work_fn)` building object `o`: empty, no callback. -/
def construct (w : World α W) (o : ℕ) (f : W) : World α W := w.setQueue o ⟨[], f, false⟩

/-- `local_insert`: push, and register a callback unless one is registered. -/
def localInsert (P : QueuePolicy α) (w : World α W) (o : ℕ) (item : α) : World α W :=
  let w' := w.setQueue o { w.queues o with localQueue := P.push (w.queues o).localQueue item }
  if !(w'.queues o).callbackRegistered then w'.registerProcessingCallback o else w'

/-- `local_clear`: the contents go, the flag stays. -/
def localClear (w : World α W) (o : ℕ) : World α W :=
  w.setQueue o { w.queues o with localQueue := [] }

/-- What both moves do once `dst` holds `q`: the source is left empty (a moved-from standard
container is empty) with its flag clear, and `dst` registers a callback if it has work. -/
def finishMove (w : World α W) (dst src : ℕ) (q : WorkQueue α W) : World α W :=
  let w₁ := w.setQueue dst q
  let w₂ := w₁.setQueue src { w₁.queues src with localQueue := [], callbackRegistered := false }
  if (w₂.queues dst).localHasWork then w₂.registerProcessingCallback dst else w₂

/-- `work_queue(std::move(other))` building object `dst` from `src`: the queue and the work
function move over, the flag starts clear. -/
def moveConstruct (w : World α W) (dst src : ℕ) : World α W :=
  w.finishMove dst src ⟨(w.queues src).localQueue, (w.queues src).workLambda, false⟩

/-- `dst = std::move(src)`: nothing on a self-move; otherwise the queue moves over and both
flags are cleared, while `dst` keeps its own `m_work_lambda`. -/
def moveAssign (w : World α W) (dst src : ℕ) : World α W :=
  if dst = src then w
  else w.finishMove dst src
    { w.queues dst with localQueue := (w.queues src).localQueue, callbackRegistered := false }

/-- `m_comm.async(...)` to a handler that inserts `item` into object `o`. -/
def send (w : World α W) (o : ℕ) (item : α) : World α W :=
  { w with inFlight := w.inFlight ++ [(o, item)] }

/-- The handler of the message `m`, taken from between `pre` and `post`, runs `local_insert`. -/
def deliver (P : QueuePolicy α) (w : World α W) (pre : List (ℕ × α)) (m : ℕ × α)
    (post : List (ℕ × α)) : World α W :=
  { w with inFlight := pre ++ post }.localInsert P m.1 m.2

/-- The barrier runs a pending callback bound to `o`: its `local_process_all` starts. -/
def runCallback (w : World α W) (o : ℕ) : World α W :=
  { w with pending := w.pending.erase o, draining := o :: w.draining }

/-- One iteration of `local_process_all` on `o`: `top`, `pop`, and the call of `o`'s work
function on the item. -/
def processTop (P : QueuePolicy α) (w : World α W) (o : ℕ) (h : (w.queues o).localQueue ≠ []) :
    World α W :=
  { w.setQueue o { w.queues o with localQueue := P.pop (w.queues o).localQueue } with
    invoked := w.invoked ++ [((w.queues o).workLambda, P.top _ h)] }

/-- `local_process_all` finds `o` empty; the callback clears the flag and returns. -/
def finishCallback (w : World α W) (o : ℕ) : World α W :=
  { w.setQueue o { w.queues o with callbackRegistered := false } with
    draining := w.draining.erase o }

end World

open World

/-- Every step a rank can take, in any order: user code, work functions and message handlers
build, insert, clear, move and send; the barrier delivers messages and runs callbacks. -/
inductive Step (P : QueuePolicy α) : World α W → World α W → Prop
  | construct (w : World α W) (o : ℕ) (f : W) : Step P w (w.construct o f)
  | localInsert (w : World α W) (o : ℕ) (item : α) : Step P w (w.localInsert P o item)
  | localClear (w : World α W) (o : ℕ) : Step P w (w.localClear o)
  | moveConstruct (w : World α W) (dst src : ℕ) (h : dst ≠ src) : Step P w (w.moveConstruct dst src)
  | moveAssign (w : World α W) (dst src : ℕ) : Step P w (w.moveAssign dst src)
  | send (w : World α W) (o : ℕ) (item : α) : Step P w (w.send o item)
  | deliver (w : World α W) (pre : List (ℕ × α)) (m : ℕ × α) (post : List (ℕ × α))
      (h : w.inFlight = pre ++ m :: post) : Step P w (w.deliver P pre m post)
  | runCallback (w : World α W) (o : ℕ) (h : o ∈ w.pending) : Step P w (w.runCallback o)
  | processTop (w : World α W) (o : ℕ) (hd : o ∈ w.draining) (h : (w.queues o).localQueue ≠ []) :
      Step P w (w.processTop P o h)
  | finishCallback (w : World α W) (o : ℕ) (hd : o ∈ w.draining)
      (h : (w.queues o).localQueue = []) : Step P w (w.finishCallback o)

/-- Reachable from a start with no object, by any interleaving of steps. -/
def Reachable (P : QueuePolicy α) (f : W) (w : World α W) : Prop :=
  Relation.ReflTransGen (Step P) (World.init f) w

/-! ### The invariant -/

/-- An object with items or with its flag set has a callback bound to it, pending or
draining it. -/
def Covered (w : World α W) : Prop :=
  ∀ o, ((w.queues o).localQueue ≠ [] ∨ (w.queues o).callbackRegistered = true) →
    o ∈ w.pending ∨ o ∈ w.draining

/-- The barrier has returned: no callback pending or draining, no message in flight. -/
def Quiescent (w : World α W) : Prop := w.pending = [] ∧ w.draining = [] ∧ w.inFlight = []

/-- Covered everywhere but perhaps at `o`: what a step that rewrites `o` has to repair. -/
def CoveredBut (w : World α W) (o : ℕ) : Prop :=
  ∀ p ≠ o, (w.queues p).localQueue ≠ [] ∨ (w.queues p).callbackRegistered = true →
    p ∈ w.pending ∨ p ∈ w.draining

section Invariant

variable {w : World α W} {o : ℕ}

theorem Covered.but (hc : Covered w) (o : ℕ) : CoveredBut w o := fun p _ => hc p

theorem CoveredBut.setQueue (hc : CoveredBut w o) (q : WorkQueue α W) :
    CoveredBut (w.setQueue o q) o := fun p hp => by
  simpa only [setQueue_queues, if_neg hp] using hc p hp

/-- Leaving another object empty with its flag clear needs no callback for it. -/
theorem CoveredBut.setQueue_idle (hc : CoveredBut w o) (src : ℕ) {q : WorkQueue α W}
    (hq : q.localQueue = [] ∧ q.callbackRegistered = false) : CoveredBut (w.setQueue src q) o := by
  intro p hp hcond
  simp only [setQueue_queues] at hcond ⊢
  split_ifs at hcond with h
  · simp [hq] at hcond
  · exact hc p hp hcond

/-- Registering a callback for `o` repairs `o`. -/
theorem CoveredBut.register (hc : CoveredBut w o) : Covered (w.registerProcessingCallback o) := by
  intro p hp
  simp only [registerProcessingCallback, List.mem_append, List.mem_singleton]
  by_cases h : p = o
  · exact .inl (.inr h)
  · simp only [registerProcessingCallback, setQueue_queues, if_neg h] at hp
    rcases hc p h hp with h' | h'
    exacts [.inl (.inl h'), .inr h']

theorem CoveredBut.covered (hc : CoveredBut w o)
    (ho : (w.queues o).localQueue ≠ [] ∨ (w.queues o).callbackRegistered = true →
      o ∈ w.pending ∨ o ∈ w.draining) : Covered w := fun p => by
  by_cases h : p = o
  · exact h ▸ ho
  · exact hc p h

theorem Covered.localInsert (P : QueuePolicy α) (hc : Covered w) (o : ℕ) (item : α) :
    Covered (w.localInsert P o item) := by
  dsimp only [World.localInsert]
  split
  · exact ((hc.but o).setQueue _).register
  · next h =>
    refine ((hc.but o).setQueue _).covered fun _ => hc o (.inr ?_)
    simpa using h

theorem Covered.finishMove (hc : Covered w) (dst src : ℕ) {q : WorkQueue α W}
    (hq : q.callbackRegistered = false) : Covered (w.finishMove dst src q) := by
  have hb := ((hc.but dst).setQueue q).setQueue_idle src (q := { (w.setQueue dst q).queues src with
    localQueue := [], callbackRegistered := false }) ⟨rfl, rfl⟩
  dsimp only [World.finishMove]
  split
  · exact hb.register
  · next h =>
    simp only [WorkQueue.localHasWork, Bool.not_eq_true, Bool.not_eq_false', List.isEmpty_iff] at h
    refine hb.covered fun hcond => ?_
    rcases hcond with hne | hfl
    · exact absurd h hne
    · revert hfl
      simp only [setQueue_queues]
      split_ifs <;> simp [hq]

/-- Every step keeps every object with work or a set flag covered by a callback. -/
theorem Covered.step {P : QueuePolicy α} {w' : World α W} (hc : Covered w) (hs : Step P w w') :
    Covered w' := by
  cases hs with
  | construct o f => exact ((hc.but o).setQueue _).covered (by simp)
  | localInsert o item => exact hc.localInsert P o item
  | localClear o =>
    exact ((hc.but o).setQueue _).covered fun h => hc o (.inr (by simpa using h))
  | moveConstruct dst src _ => exact hc.finishMove dst src rfl
  | moveAssign dst src =>
    unfold World.moveAssign
    split
    · exact hc
    · exact hc.finishMove dst src rfl
  | send o item => exact hc
  | deliver pre m post _ => exact Covered.localInsert P (w := { w with inFlight := pre ++ post }) hc _ _
  | runCallback o ho =>
    intro p hp
    simp only [World.runCallback, List.mem_cons]
    rcases hc p hp with h | h
    · by_cases hpo : p = o
      · exact .inr (.inl hpo)
      · exact .inl ((List.mem_erase_of_ne hpo).2 h)
    · exact .inr (.inr h)
  | processTop o hd h => exact ((hc.but o).setQueue _).covered fun _ => .inr hd
  | finishCallback o hd h =>
    intro p hp
    simp only [World.finishCallback, setQueue_queues] at hp ⊢
    split_ifs at hp with hpo
    · simp [hpo, h] at hp
    · rcases hc p hp with h' | h'
      exacts [.inl h', .inr ((List.mem_erase_of_ne hpo).2 h')]

theorem covered_init (f : W) : Covered (World.init f : World α W) := by
  intro o ho
  simp [World.init] at ho

theorem Reachable.covered {P : QueuePolicy α} {f : W} (h : Reachable P f w) : Covered w := by
  induction h with
  | refl => exact covered_init f
  | tail _ hs ih => exact ih.step hs

/-- Once the barrier has returned, nothing is left to cover. -/
theorem Covered.quiescent (hc : Covered w) (hq : Quiescent w) (o : ℕ) :
    (w.queues o).localQueue = [] ∧ (w.queues o).callbackRegistered = false := by
  have h := hc o
  simp only [hq.1, hq.2.1, List.not_mem_nil, or_self, imp_false, not_or, ne_eq, not_not,
    Bool.not_eq_true] at h
  exact h

end Invariant

/-! ### A drain with nothing in between is `local_process_all` -/

section Drain

variable {σ : Type} (P : QueuePolicy α) {w : World α W} {o : ℕ}

/-- With the flag set, `local_insert` only pushes. -/
theorem localInsert_of_registered (hflag : (w.queues o).callbackRegistered = true) (item : α) :
    w.localInsert P o item =
      w.setQueue o { w.queues o with localQueue := (w.queues o).localQueue ++ [item] } := by
  simp [World.localInsert, hflag, QueuePolicy.push]

/-- A work function's inserts into its own queue, one `local_insert` each. -/
theorem insertAll_steps (o : ℕ) (ins : List α) : ∀ w : World α W,
    (w.queues o).callbackRegistered = true →
    Relation.ReflTransGen (Step P) w
      (w.setQueue o { w.queues o with localQueue := (w.queues o).localQueue ++ ins }) := by
  induction ins with
  | nil =>
    intro w _
    simp only [List.append_nil]
    rw [setQueue_self]
  | cons x ins ih =>
    intro w hflag
    have h₁ := Step.localInsert (P := P) w o x
    rw [localInsert_of_registered P hflag] at h₁
    have h₂ := ih (w.setQueue o { w.queues o with localQueue := (w.queues o).localQueue ++ [x] })
      (by simpa using hflag)
    simp only [setQueue_setQueue, setQueue_queues, if_true, List.append_assoc,
      List.singleton_append] at h₂
    exact .head h₁ h₂

/-- The drain of `o`, its callback running and its flag set, with only the work function's own
inserts in between: the steps the world takes are those of `local_process_all` run with `o`'s
work function, each call recorded against that function, and the callback then returns. -/
theorem drain_steps (run : W → σ → α → σ × List α) (fuel : ℕ) : ∀ (w : World α W) (st : σ)
    (r : σ × List α × List (Invocation α)), o ∈ w.draining →
    (w.queues o).callbackRegistered = true →
    localProcessAll P (run (w.queues o).workLambda) fuel st (w.queues o).localQueue = some r →
    Relation.ReflTransGen (Step P) w
      { w.setQueue o { w.queues o with localQueue := [], callbackRegistered := false } with
        draining := w.draining.erase o
        invoked := w.invoked ++ r.2.2.map fun inv => ((w.queues o).workLambda, inv.item) } := by
  induction fuel with
  | zero => intro _ _ _ _ _ hr; cases hr
  | succ fuel ih =>
    intro w st r hd hflag hr
    by_cases hne : (w.queues o).localQueue = []
    · rw [hne] at hr
      simp only [localProcessAll, Option.some.injEq] at hr
      subst hr
      refine .single ?_
      convert Step.finishCallback (P := P) w o hd hne using 1
      ext : 1 <;> simp [World.finishCallback, hne]
    · rw [localProcessAll_of_ne_nil P _ hne] at hr
      obtain ⟨res, hres, rfl⟩ := Option.map_eq_some'.mp hr
      set call := run (w.queues o).workLambda st (P.top _ hne)
      set w₁ := w.processTop P o hne
      have hins := insertAll_steps P o call.2 w₁ (by simpa [w₁, World.processTop] using hflag)
      have hrest := ih (w₁.setQueue o { w₁.queues o with localQueue := (w₁.queues o).localQueue ++ call.2 })
        call.1 res (by simpa [w₁, World.processTop] using hd)
        (by simpa [w₁, World.processTop] using hflag) (by simpa [w₁, World.processTop] using hres)
      convert (hins.trans hrest).head (Step.processTop (P := P) w o hd hne) using 1
      ext : 1
      · funext p
        by_cases hp : p = o <;> simp [w₁, World.processTop, hp]
      all_goals simp [w₁, call, World.processTop]

end Drain

/-! ### Moves -/

section Moves

variable {w : World α W} {dst src : ℕ}

/-- What a move leaves: `dst` holds `q`, its flag set iff it has work; the source is empty with
its flag clear; a callback for `dst` joins the list iff it has work; nothing else changes. -/
theorem finishMove_spec (h : dst ≠ src) {q : WorkQueue α W} (hq : q.callbackRegistered = false) :
    (w.finishMove dst src q).queues dst = { q with callbackRegistered := q.localHasWork } ∧
    (w.finishMove dst src q).queues src =
      { w.queues src with localQueue := [], callbackRegistered := false } ∧
    (∀ p, p ≠ dst → p ≠ src → (w.finishMove dst src q).queues p = w.queues p) ∧
    (w.finishMove dst src q).pending = w.pending ++ (if q.localHasWork then [dst] else []) ∧
    (w.finishMove dst src q).draining = w.draining ∧
    (w.finishMove dst src q).inFlight = w.inFlight ∧ (w.finishMove dst src q).invoked = w.invoked := by
  obtain ⟨lq, f, b⟩ := q
  subst hq
  dsimp only [World.finishMove]
  refine ⟨?_, ?_, fun p h₁ h₂ => ?_, ?_⟩
  all_goals cases hw : WorkQueue.localHasWork ⟨lq, f, false⟩
  all_goals simp [registerProcessingCallback, h, Ne.symm h, hw, *]

/-- The next barrier after a move that leaves `dst` with work: it runs the callback the move
registered, and a drain with nothing in between passes every item to the work function `dst`
now holds. -/
theorem finishMove_next_barrier {σ : Type} (P : QueuePolicy α) (run : W → σ → α → σ × List α)
    (h : dst ≠ src) {q : WorkQueue α W} (hq : q.callbackRegistered = false)
    (hwork : q.localQueue ≠ []) {fuel : ℕ} {st : σ} {r : σ × List α × List (Invocation α)}
    (hr : localProcessAll P (run q.workLambda) fuel st q.localQueue = some r) :
    ∃ w', Relation.ReflTransGen (Step P) (w.finishMove dst src q) w' ∧
      w'.invoked = w.invoked ++ r.2.2.map (fun inv => (q.workLambda, inv.item)) ∧
      (w'.queues dst).localQueue = [] ∧ (w'.queues dst).callbackRegistered = false := by
  obtain ⟨hdst, -, -, hpend, -, -, hinv⟩ := finishMove_spec (w := w) h hq
  have hhw : q.localHasWork = true := by simpa [WorkQueue.localHasWork] using hwork
  have hrun := Step.runCallback (P := P) (w.finishMove dst src q) dst (by simp [hpend, hhw])
  have hq₂ : ((w.finishMove dst src q).runCallback dst).queues dst =
      { q with callbackRegistered := true } := by
    simp [World.runCallback, hdst, hhw]
  have hdrain := drain_steps (o := dst) P run fuel ((w.finishMove dst src q).runCallback dst) st r
    (by simp [World.runCallback]) (by simp [hq₂]) (by simpa [hq₂] using hr)
  exact ⟨_, .head hrun hdrain, by simp [World.runCallback, hinv, hdst], by simp, by simp⟩

/-- The move assignment hands over the contents but not the work function: the source is
left empty with its flag clear, `dst` holds the source's contents with a callback registered
iff they are non-empty, and at the next barrier the items go to the work function `dst` was
built with. -/
theorem moveAssign_hands_over_queue {σ : Type} (P : QueuePolicy α) (run : W → σ → α → σ × List α)
    (w : World α W) (dst src : ℕ) (h : dst ≠ src) :
    ((w.moveAssign dst src).queues src).localQueue = [] ∧
    ((w.moveAssign dst src).queues src).callbackRegistered = false ∧
    (w.moveAssign dst src).queues dst =
      ⟨(w.queues src).localQueue, (w.queues dst).workLambda, (w.queues src).localHasWork⟩ ∧
    (w.moveAssign dst src).pending =
      w.pending ++ (if (w.queues src).localHasWork then [dst] else []) ∧
    ∀ (fuel : ℕ) (st : σ) r, (w.queues src).localQueue ≠ [] →
      localProcessAll P (run (w.queues dst).workLambda) fuel st (w.queues src).localQueue = some r →
      ∃ w', Relation.ReflTransGen (Step P) (w.moveAssign dst src) w' ∧
        w'.invoked = w.invoked ++ r.2.2.map (fun inv => ((w.queues dst).workLambda, inv.item)) := by
  obtain ⟨hdst, hsrc, -, hpend, -⟩ := finishMove_spec (w := w) h
    (q := { w.queues dst with localQueue := (w.queues src).localQueue, callbackRegistered := false })
    rfl
  simp only [moveAssign, if_neg h]
  refine ⟨by simp [hsrc], by simp [hsrc], hdst, hpend, fun fuel st r hne hr => ?_⟩
  obtain ⟨w', hsteps, hinv, -⟩ := finishMove_next_barrier P run h (w := w)
    (q := { w.queues dst with localQueue := (w.queues src).localQueue, callbackRegistered := false })
    rfl hne hr
  exact ⟨w', hsteps, hinv⟩

end Moves

/-! ### The barrier returns -/

/-- The barrier's own steps: a message delivered, a pending callback run, an iteration of a
drain, the end of a drain. -/
inductive BarrierStep (P : QueuePolicy α) : World α W → World α W → Prop
  | deliver (w : World α W) (pre : List (ℕ × α)) (m : ℕ × α) (post : List (ℕ × α))
      (h : w.inFlight = pre ++ m :: post) : BarrierStep P w (w.deliver P pre m post)
  | runCallback (w : World α W) (o : ℕ) (h : o ∈ w.pending) : BarrierStep P w (w.runCallback o)
  | processTop (w : World α W) (o : ℕ) (hd : o ∈ w.draining) (h : (w.queues o).localQueue ≠ []) :
      BarrierStep P w (w.processTop P o h)
  | finishCallback (w : World α W) (o : ℕ) (hd : o ∈ w.draining)
      (h : (w.queues o).localQueue = []) : BarrierStep P w (w.finishCallback o)

/-- What the drains under way still owe: one for each draining callback, and its queue. -/
def drainMeasure (w : World α W) : ℕ :=
  (w.draining.map fun o => (w.queues o).localQueue.length + 1).sum

section Returns

variable (P : QueuePolicy α)

theorem BarrierStep.step {w w' : World α W} (h : BarrierStep P w w') : Step P w w' := by
  cases h with
  | deliver pre m post h => exact .deliver w pre m post h
  | runCallback o h => exact .runCallback w o h
  | processTop o hd h => exact .processTop w o hd h
  | finishCallback o hd h => exact .finishCallback w o hd h

@[simp] theorem localInsert_inFlight (w : World α W) (o : ℕ) (item : α) :
    (w.localInsert P o item).inFlight = w.inFlight := by
  simp only [World.localInsert]
  split <;> rfl

/-- The drains under way run to their ends. -/
theorem drains_finish (n : ℕ) : ∀ w : World α W, drainMeasure w ≤ n →
    ∃ w', Relation.ReflTransGen (BarrierStep P) w w' ∧ w'.draining = [] ∧
      w'.pending = w.pending ∧ w'.inFlight = w.inFlight := by
  induction n with
  | zero =>
    intro w h
    refine ⟨w, .refl, ?_, rfl, rfl⟩
    cases hd : w.draining with
    | nil => rfl
    | cons o rest => simp [drainMeasure, hd] at h
  | succ n ih =>
    intro w h
    cases hd : w.draining with
    | nil => exact ⟨w, .refl, hd, rfl, rfl⟩
    | cons o rest =>
      have ho : o ∈ w.draining := hd ▸ List.mem_cons_self _ _
      by_cases hq : (w.queues o).localQueue = []
      · have hlen : (fun p => ((w.finishCallback o).queues p).localQueue.length + 1) =
            fun p => (w.queues p).localQueue.length + 1 := by
          funext p
          by_cases hp : p = o <;> simp [World.finishCallback, hp]
        have hm := List.sum_map_erase (fun p => (w.queues p).localQueue.length + 1) ho
        obtain ⟨w', hs, h₁, h₂, h₃⟩ := ih (w.finishCallback o) (by
          simp only [drainMeasure, hlen] at h ⊢
          simp only [World.finishCallback, hq, List.length_nil] at hm ⊢
          omega)
        exact ⟨w', .head (.finishCallback w o ho hq) hs, h₁, h₂, h₃⟩
      · have hlt : drainMeasure (w.processTop P o hq) < drainMeasure w := by
          have hpop := (P.pop_perm _ hq).length_eq
          simp only [List.length_cons] at hpop
          refine List.sum_lt_sum _ _ (fun p _ => ?_) ⟨o, ho, ?_⟩
          · by_cases hp : p = o
            · simp [World.processTop, hp]; omega
            · simp [World.processTop, hp]
          · simp [World.processTop]; omega
        obtain ⟨w', hs, h₁, h₂, h₃⟩ := ih (w.processTop P o hq) (by omega)
        exact ⟨w', .head (.processTop w o ho hq) hs, h₁, h₂, h₃⟩

/-- With nothing in flight, the pending callbacks run and drain one after another. -/
theorem callbacks_finish (n : ℕ) : ∀ w : World α W, w.pending.length ≤ n → w.inFlight = [] →
    ∃ w', Relation.ReflTransGen (BarrierStep P) w w' ∧ Quiescent w' := by
  induction n with
  | zero =>
    intro w hp hf
    obtain ⟨w', hs, h₁, h₂, h₃⟩ := drains_finish P _ w le_rfl
    exact ⟨w', hs, h₂.trans (List.eq_nil_of_length_eq_zero (by omega)), h₁, h₃.trans hf⟩
  | succ n ih =>
    intro w hp hf
    obtain ⟨w₁, hs₁, h₁, h₂, h₃⟩ := drains_finish P _ w le_rfl
    cases hpend : w₁.pending with
    | nil => exact ⟨w₁, hs₁, hpend, h₁, h₃.trans hf⟩
    | cons o rest =>
      have ho : o ∈ w₁.pending := hpend ▸ List.mem_cons_self _ _
      have hlen : (w₁.runCallback o).pending.length ≤ n := by
        simp only [World.runCallback]
        rw [List.length_erase_of_mem ho, h₂]
        omega
      obtain ⟨w', hs, hq⟩ := ih (w₁.runCallback o) hlen (h₃.trans hf)
      exact ⟨w', hs₁.trans (.head (.runCallback w₁ o ho) hs), hq⟩

/-- The barrier returns: from any world, its own steps (delivering every message, then running
every pending callback to the end of its drain) reach a world with nothing pending, draining or
in flight. -/
theorem barrier_returns_from (n : ℕ) : ∀ w : World α W, w.inFlight.length ≤ n →
    ∃ w', Relation.ReflTransGen (BarrierStep P) w w' ∧ Quiescent w' := by
  induction n with
  | zero =>
    intro w h
    exact callbacks_finish P _ w le_rfl (List.eq_nil_of_length_eq_zero (by omega))
  | succ n ih =>
    intro w h
    cases hf : w.inFlight with
    | nil => exact callbacks_finish P _ w le_rfl hf
    | cons m rest =>
      have hlen : (w.deliver P [] m rest).inFlight.length ≤ n := by
        simp only [World.deliver, localInsert_inFlight, List.nil_append]
        rw [hf, List.length_cons] at h
        omega
      obtain ⟨w', hs, hq⟩ := ih (w.deliver P [] m rest) hlen
      exact ⟨w', .head (.deliver w [] m rest hf) hs, hq⟩

end Returns

/-- From every reachable world the barrier's own steps reach a world where it returns, and
there every queue is empty with its flag clear. -/
theorem barrier_completes (P : QueuePolicy α) (f : W) {w : World α W} (h : Reachable P f w) :
    ∃ w', Relation.ReflTransGen (BarrierStep P) w w' ∧ Quiescent w' ∧
      ∀ o, (w'.queues o).localQueue = [] ∧ (w'.queues o).callbackRegistered = false := by
  obtain ⟨w', hs, hq⟩ := barrier_returns_from P _ w le_rfl
  have hr : Reachable P f w' := h.trans (hs.mono fun _ _ => BarrierStep.step P)
  exact ⟨w', hs, hq, hr.covered.quiescent hq⟩

theorem barrier_completes_insert :
    let w : World ℕ ℕ := (World.init 0).localInsert fifoPolicy 0 7
    Reachable fifoPolicy 0 w ∧ ∃ w', Relation.ReflTransGen (BarrierStep fifoPolicy) w w' ∧
      Quiescent w' ∧ ∀ o, (w'.queues o).localQueue = [] ∧ (w'.queues o).callbackRegistered = false := by
  intro w
  have h : Reachable fifoPolicy 0 w := .single (.localInsert _ 0 7)
  exact ⟨h, barrier_completes fifoPolicy 0 h⟩

/-! ### The barrier loses no item and passes none twice -/

/-- The items the objects `objs` hold, then the items the messages in flight carry. -/
def World.held (w : World α W) (objs : List ℕ) : List α :=
  objs.flatMap (fun o => (w.queues o).localQueue) ++ w.inFlight.map Prod.snd

/-- `objs` names every object with items and every object a message in flight is for. -/
def Tracks (objs : List ℕ) (w : World α W) : Prop :=
  (∀ o, (w.queues o).localQueue ≠ [] → o ∈ objs) ∧ ∀ m ∈ w.inFlight, m.1 ∈ objs

/-- Changing the contents of one object `o` of `objs`, none named twice, changes what `objs`
hold by exactly what it changes at `o`. -/
theorem flatMap_perm_of_eq_off {β : Type} {objs : List ℕ} (hnd : objs.Nodup) {o : ℕ}
    (ho : o ∈ objs) {f g : ℕ → List β} (hfg : ∀ p, p ≠ o → f p = g p) {d e : List β}
    (h : (f o ++ d).Perm (g o ++ e)) : (objs.flatMap f ++ d).Perm (objs.flatMap g ++ e) := by
  induction objs with
  | nil => exact absurd ho (List.not_mem_nil o)
  | cons p ps ih =>
    obtain ⟨hp, hnd⟩ := List.nodup_cons.1 hnd
    simp only [List.flatMap_cons, List.append_assoc]
    by_cases hpo : p = o
    · subst hpo
      rw [List.flatMap_congr fun q hq => hfg q fun h => hp (h ▸ hq)]
      exact (List.perm_append_comm_assoc _ _ _).trans
        ((h.append_left _).trans (List.perm_append_comm_assoc _ _ _))
    · rw [hfg p hpo]
      exact (ih hnd ((List.mem_cons.1 ho).resolve_left (Ne.symm hpo))).append_left _

section Held

variable (P : QueuePolicy α) {objs : List ℕ}

@[simp] theorem localInsert_localQueue (w : World α W) (o p : ℕ) (item : α) :
    ((w.localInsert P o item).queues p).localQueue =
      if p = o then (w.queues o).localQueue ++ [item] else (w.queues p).localQueue := by
  simp only [World.localInsert]
  split <;> by_cases hp : p = o <;> simp [registerProcessingCallback, QueuePolicy.push, hp]

@[simp] theorem localInsert_invoked (w : World α W) (o : ℕ) (item : α) :
    (w.localInsert P o item).invoked = w.invoked := by
  simp only [World.localInsert]
  split <;> rfl

/-- One step of the barrier keeps `objs` tracking every item and only appends calls; it moves
one item from a message to a queue, or from a queue to a call of the work function, or none. -/
theorem BarrierStep.held_perm (hnd : objs.Nodup) {w w' : World α W} (hs : BarrierStep P w w')
    (ht : Tracks objs w) :
    Tracks objs w' ∧ (∃ new, w'.invoked = w.invoked ++ new) ∧
      (w'.invoked.map Prod.snd ++ w'.held objs).Perm (w.invoked.map Prod.snd ++ w.held objs) := by
  cases hs with
  | deliver pre m post hf =>
    have hm : m.1 ∈ objs := ht.2 m (by simp [hf])
    refine ⟨⟨fun p hp => ?_, fun m' hm' => ht.2 m' ?_⟩, ⟨[], by simp [World.deliver]⟩, ?_⟩
    · simp only [World.deliver, localInsert_localQueue] at hp
      split_ifs at hp with hpm
      · exact hpm ▸ hm
      · exact ht.1 p hp
    · simp only [World.deliver, localInsert_inFlight, List.mem_append] at hm'
      rw [hf, List.mem_append, List.mem_cons]
      tauto
    · simp only [World.deliver, World.held, localInsert_invoked, localInsert_inFlight, hf,
        List.perm_append_left_iff]
      refine flatMap_perm_of_eq_off hnd hm (fun p hp => by simp [hp]) ?_
      simp only [localInsert_localQueue, if_true, List.map_append, List.map_cons,
        List.append_assoc, List.singleton_append]
      exact List.perm_middle.symm.append_left _
  | runCallback o ho => exact ⟨ht, ⟨[], (List.append_nil _).symm⟩, List.Perm.refl _⟩
  | processTop o hd hne =>
    refine ⟨⟨fun p hp => ?_, ht.2⟩, ⟨_, rfl⟩, ?_⟩
    · by_cases hpo : p = o
      · exact hpo ▸ ht.1 o hne
      · exact ht.1 p (by simpa [World.processTop, hpo] using hp)
    · simp only [World.processTop, World.held, List.map_append, List.map_singleton,
        List.append_assoc, List.perm_append_left_iff, setQueue_inFlight, List.singleton_append]
      refine List.perm_middle.symm.trans (flatMap_perm_of_eq_off hnd (ht.1 o hne)
        (fun p hp => by simp [hp]) ?_)
      simpa using List.perm_middle.trans ((P.pop_perm _ hne).append_right _)
  | finishCallback o hd hq =>
    have hsame : ∀ p, ((w.finishCallback o).queues p).localQueue = (w.queues p).localQueue := by
      intro p
      by_cases hp : p = o <;> simp [World.finishCallback, hp]
    refine ⟨⟨fun p hp => ht.1 p (hsame p ▸ hp), ht.2⟩, ⟨[], (List.append_nil _).symm⟩, ?_⟩
    simp only [World.held, hsame]
    rfl

end Held

/-! ### Where the items of a move assignment go -/

section SoleHolder

variable {o : ℕ} {l : W} {calls : List (W × α)}

/-- Only `o` holds items, no message is in flight, `o`'s work function is `l`, and the calls
made so far, followed by `o`'s items handed to `l` in queue order, are `calls`. -/
def SoleHolder (o : ℕ) (l : W) (calls : List (W × α)) (w : World α W) : Prop :=
  w.inFlight = [] ∧ (∀ p ≠ o, (w.queues p).localQueue = []) ∧ (w.queues o).workLambda = l ∧
    w.invoked ++ (w.queues o).localQueue.map (fun x => (l, x)) = calls

/-- A FIFO barrier step keeps it: only `o` can be drained, and its front item goes to `l`. -/
theorem SoleHolder.step {w w' : World α W} (hw : SoleHolder o l calls w)
    (hs : BarrierStep fifoPolicy w w') : SoleHolder o l calls w' := by
  obtain ⟨hf, hother, hl, hcalls⟩ := hw
  cases hs with
  | deliver pre m post h => simp [hf] at h
  | runCallback p _ => exact ⟨hf, hother, hl, hcalls⟩
  | processTop p _ hne =>
    obtain rfl : p = o := by_contra fun hpo => hne (hother p hpo)
    obtain ⟨x, xs, hx⟩ := List.exists_cons_of_ne_nil hne
    refine ⟨hf, fun q hq => by simp [World.processTop, hq, hother q hq], by simp [World.processTop, hl],
      ?_⟩
    rw [← hcalls]
    simp [World.processTop, hx, fifoPolicy, hl]
  | finishCallback p _ _ =>
    have hsame : ∀ q, (((w.finishCallback p).queues q).localQueue = (w.queues q).localQueue ∧
        ((w.finishCallback p).queues q).workLambda = (w.queues q).workLambda) := fun q => by
      by_cases hq : q = p <;> simp [World.finishCallback, hq]
    refine ⟨hf, fun q hq => (hsame q).1.trans (hother q hq), (hsame o).2.trans hl, ?_⟩
    rw [(hsame o).1, ← hcalls]
    rfl

theorem SoleHolder.steps {w w' : World α W} (hw : SoleHolder o l calls w)
    (hs : Relation.ReflTransGen (BarrierStep fifoPolicy) w w') : SoleHolder o l calls w' := by
  induction hs with
  | refl => exact hw
  | tail _ h ih => exact ih.step h

end SoleHolder

/-- `dst = std::move(src)` in a world where only `src` holds items and no message is in flight:
every FIFO barrier that then returns hands `src`'s items, in order, to the work function `dst`
was built with, not to `src`'s. -/
theorem moveAssign_barrier_calls (f : W) {w w' : World α W} {dst src : ℕ}
    (hr : Reachable fifoPolicy f w) (h : dst ≠ src) (hf : w.inFlight = [])
    (honly : ∀ p ≠ src, (w.queues p).localQueue = [])
    (hs : Relation.ReflTransGen (BarrierStep fifoPolicy) (w.moveAssign dst src) w')
    (hq : Quiescent w') :
    w'.invoked =
      w.invoked ++ (w.queues src).localQueue.map fun x => ((w.queues dst).workLambda, x) := by
  obtain ⟨hdst, hsrc, hother, -, -, hfl, hinv⟩ := finishMove_spec (w := w) h
    (q := { w.queues dst with localQueue := (w.queues src).localQueue, callbackRegistered := false })
    rfl
  have h₀ : SoleHolder dst (w.queues dst).workLambda
      (w.invoked ++ (w.queues src).localQueue.map fun x => ((w.queues dst).workLambda, x))
      (w.moveAssign dst src) := by
    simp only [World.moveAssign, if_neg h]
    refine ⟨hfl.trans hf, fun p hp => ?_, by rw [hdst], by rw [hinv, hdst]⟩
    by_cases hps : p = src
    · rw [hps, hsrc]
    · rw [hother p hp hps, honly p hps]
  have hr' : Reachable fifoPolicy f w' :=
    (hr.tail (.moveAssign w dst src)).trans (hs.mono fun _ _ => BarrierStep.step fifoPolicy)
  obtain ⟨-, -, -, hcalls⟩ := h₀.steps hs
  rwa [(hr'.covered.quiescent hq dst).1, List.map_nil, List.append_nil] at hcalls

/-- Object 0, built with work function `1`, holds item 7; object 1 was built with work function
`2`.  After `obj1 = std::move(obj0)` a barrier can run to its end, and every barrier that does
hands 7 to function `2` alone: function `1`, the source's, never sees it. -/
theorem moveAssign_item_reaches_destination_lambda :
    let w : World ℕ ℕ := (((World.init 0).construct 0 1).construct 1 2).localInsert fifoPolicy 0 7
    Reachable fifoPolicy 0 (w.moveAssign 1 0) ∧
    (∃ w', Relation.ReflTransGen (BarrierStep fifoPolicy) (w.moveAssign 1 0) w' ∧ Quiescent w') ∧
    ∀ w', Relation.ReflTransGen (BarrierStep fifoPolicy) (w.moveAssign 1 0) w' → Quiescent w' →
      w'.invoked = [(2, 7)] := by
  intro w
  have hr : Reachable fifoPolicy 0 w :=
    .tail (.tail (.single (.construct _ 0 1)) (.construct _ 1 2)) (.localInsert _ 0 7)
  have honly : ∀ p ≠ 0, (w.queues p).localQueue = [] := fun p hp => by
    by_cases hp1 : p = 1 <;>
      simp [w, World.localInsert, World.construct, registerProcessingCallback, World.init, hp, hp1]
  refine ⟨hr.tail (.moveAssign _ 1 0), ⟨_, .tail (.tail (.tail (.tail
    (.single (.runCallback _ 0 (by decide))) (.finishCallback _ 0 (by decide) (by decide)))
    (.runCallback _ 1 (by decide))) (.processTop _ 1 (by decide) (by decide)))
    (.finishCallback _ 1 (by decide) (by decide)), ⟨rfl, rfl, rfl⟩⟩, fun w' hs hq => ?_⟩
  exact (moveAssign_barrier_calls 0 hr (by decide) rfl honly hs hq).trans rfl

/-- Under any interleaving of inserts (by user code, by work functions, by message handlers),
clears, moves, sends, deliveries and callback runs, every object with work or with its flag set
has a callback bound to it that is pending or draining it.  So when a barrier returns, with
nothing pending, draining or in flight, every queue is empty with its flag clear, and the
destructor's `local_size() == 0` after its barrier holds. -/
theorem reachable_work_covered (P : QueuePolicy α) (f : W) {w : World α W}
    (h : Reachable P f w) :
    (∀ o, (w.queues o).localQueue ≠ [] ∨ (w.queues o).callbackRegistered = true →
      o ∈ w.pending ∨ o ∈ w.draining) ∧
    (Quiescent w → ∀ o, (w.queues o).localQueue = [] ∧
      (w.queues o).callbackRegistered = false ∧ (w.queues o).localSize = 0) := by
  have hc := h.covered
  refine ⟨hc, fun hq o => ?_⟩
  have ho := hc.quiescent hq o
  exact ⟨ho.1, ho.2, by simp [WorkQueue.localSize, ho.1]⟩

/-- One item inserted and a barrier run to its end: the world is quiescent, and every queue is
empty with its flag clear. -/
theorem reachable_work_covered_insert :
    let w : World ℕ ℕ := ((((World.init 0).localInsert fifoPolicy 0 7).runCallback 0).processTop
      fifoPolicy 0 (by decide)).finishCallback 0
    Reachable fifoPolicy 0 w ∧ Quiescent w ∧
    (∀ o, (w.queues o).localQueue ≠ [] ∨ (w.queues o).callbackRegistered = true →
      o ∈ w.pending ∨ o ∈ w.draining) ∧
    (Quiescent w → ∀ o, (w.queues o).localQueue = [] ∧ (w.queues o).callbackRegistered = false ∧
      (w.queues o).localSize = 0) := by
  intro w
  have h : Reachable fifoPolicy 0 w := .tail (.tail (.tail (.single (.localInsert _ 0 7))
    (.runCallback _ 0 (by decide))) (.processTop _ 0 (by decide) _))
    (.finishCallback _ 0 (by decide) (by decide))
  exact ⟨h, ⟨rfl, rfl, rfl⟩, reachable_work_covered fifoPolicy 0 h⟩

end Ygm
