import ScalaNeko.Lib.AsyncNetwork

/-!
Message passing over FIFO channels: one from each process to each process, none of which loses,
repeats or reorders a message, and which are not synchronised with each other.
-/

namespace FIFONetwork

open AsyncNetwork (Envelope Program)

variable {P σ ι κ μ : Type}

/--
`sent p q` is what `p` has put into its channel to `q`, and `taken q p` is how much of it `q` has
received.
-/
structure World (P σ μ : Type) where
  node : P → σ
  sent : P → P → List μ
  taken : P → P → Nat

inductive Action (P ι κ μ : Type) where
  | input (p : P) (i : ι)
  | receive (p q : P) (m : μ) (k : κ)

section ToDest

variable [DecidableEq P]

def toDest (out : List (Envelope P μ)) (q : P) : List μ :=
  (out.filter (fun e => e.dest = q)).map Envelope.msg

@[simp]
theorem toDest_nil (q : P) : toDest ([] : List (Envelope P μ)) q = [] := rfl

theorem toDest_append (out out' : List (Envelope P μ)) (q : P)
    : toDest (out ++ out') q = toDest out q ++ toDest out' q := by
  rw [toDest, List.filter_append, List.map_append]
  rfl

end ToDest

namespace World

-- What `p` has received from `q`.
def received (w : World P σ μ) (p q : P) : List μ := (w.sent q p).take (w.taken p q)

variable [DecidableEq P]

def emit (w : World P σ μ) (p : P) (s : σ) (out : List (Envelope P μ)) : World P σ μ where
  node := Function.update w.node p s
  sent := Function.update w.sent p (fun q => w.sent p q ++ toDest out q)
  taken := w.taken

def take (w : World P σ μ) (p q : P) : World P σ μ :=
  { w with taken := Function.update w.taken p (Function.update (w.taken p) q (w.taken p q + 1)) }

end World

theorem received_prefix (w : World P σ μ) (p q : P) : w.received p q <+: w.sent q p :=
  List.take_prefix _ _

variable [DecidableEq P]

/--
A program is told from which process a message comes.
-/
inductive Step (prog : Program P σ ι (P × κ) μ)
    : World P σ μ → Action P ι κ μ → World P σ μ → Prop where
  | input {w : World P σ μ} {p : P} {i : ι} {s : σ} {out : List (Envelope P μ)} :
      prog.input p i (w.node p) = some (s, out) →
      Step prog w (.input p i) (w.emit p s out)
  | receive {w : World P σ μ} {p q : P} {m : μ} {k : κ} {s : σ} {out : List (Envelope P μ)} :
      (w.sent q p)[w.taken p q]? = some m →
      prog.receive p m (q, k) (w.node p) = some (s, out) →
      Step prog w (.receive p q m k) ((w.take p q).emit p s out)

def initWorld (prog : Program P σ ι (P × κ) μ) : World P σ μ where
  node := prog.init
  sent := fun _ _ => []
  taken := fun _ _ => 0

def lts (prog : Program P σ ι (P × κ) μ) : LTS (World P σ μ) (Action P ι κ μ) where
  init := fun w => w = initWorld prog
  step := Step prog

section Received

variable {w : World P σ μ} {p q : P} {m : μ}

theorem take_received (h : (w.sent q p)[w.taken p q]? = some m)
    : (w.take p q).received p
      = Function.update (w.received p) q (w.received p q ++ [m]) := by
  funext r
  unfold World.take World.received
  dsimp only
  rw [Function.update_self]
  by_cases hr : r = q
  . subst hr
    rw [Function.update_self, Function.update_self, List.take_add_one, h]
    rfl
  . rw [Function.update_of_ne hr, Function.update_of_ne hr]

theorem take_received_of_ne {p' : P} (hp : p' ≠ p) : (w.take p q).received p' = w.received p' := by
  funext r
  unfold World.take World.received
  dsimp only
  rw [Function.update_of_ne hp]

-- What is sent goes behind everything that has been sent before.
theorem emit_received (hle : ∀ r q, w.taken r q ≤ (w.sent q r).length) (s : σ)
    (out : List (Envelope P μ)) (r : P)
    : (w.emit p s out).received r = w.received r := by
  funext q
  unfold World.emit World.received
  dsimp only
  by_cases hq : q = p
  . subst hq
    rw [Function.update_self, List.take_append_of_le_length (hle r q)]
  . rw [Function.update_of_ne hq]

end Received

variable {prog : Program P σ ι (P × κ) μ} {w w' : World P σ μ}

theorem Reach.input {ok : World P σ μ → Action P ι κ μ → World P σ μ → Prop} {s : σ}
    {out : List (Envelope P μ)} (h : (lts prog).Reach ok w) (p : P) (i : ι)
    (hinput : prog.input p i (w.node p) = some (s, out))
    (hok : ok w (.input p i) (w.emit p s out))
    : (lts prog).Reach ok (w.emit p s out) :=
  .step h (.input hinput) hok

theorem Reach.receive {ok : World P σ μ → Action P ι κ μ → World P σ μ → Prop} {s : σ}
    {out : List (Envelope P μ)} (h : (lts prog).Reach ok w) (p q : P) (m : μ) (k : κ)
    (hget : (w.sent q p)[w.taken p q]? = some m)
    (hreceive : prog.receive p m (q, k) (w.node p) = some (s, out))
    (hok : ok w (.receive p q m k) ((w.take p q).emit p s out))
    : (lts prog).Reach ok ((w.take p q).emit p s out) :=
  .step h (.receive hget hreceive) hok

theorem taken_le_of_emit {p : P} {s : σ} {out : List (Envelope P μ)}
    (hle : ∀ r q, w.taken r q ≤ (w.sent q r).length)
    : ∀ r q, (w.emit p s out).taken r q ≤ ((w.emit p s out).sent q r).length := by
  intro r q
  apply Nat.le_trans (hle r q)
  unfold World.emit
  dsimp only
  by_cases hq : q = p
  . subst hq
    rw [Function.update_self, List.length_append]
    exact Nat.le_add_right _ _
  . rw [Function.update_of_ne hq]

theorem taken_le_of_take {p q : P} {m : μ} (hle : ∀ r q, w.taken r q ≤ (w.sent q r).length)
    (hget : (w.sent q p)[w.taken p q]? = some m)
    : ∀ r r', (w.take p q).taken r r' ≤ ((w.take p q).sent r' r).length := by
  intro r r'
  obtain ⟨hlt, -⟩ := List.getElem?_eq_some_iff.mp hget
  unfold World.take
  dsimp only
  by_cases hr : r = p
  . subst hr
    rw [Function.update_self]
    by_cases hq : r' = q
    . subst hq
      rw [Function.update_self]
      exact hlt
    . rw [Function.update_of_ne hq]
      exact hle r r'
  . rw [Function.update_of_ne hr]
    exact hle r r'

theorem taken_le_of_reach {ok : World P σ μ → Action P ι κ μ → World P σ μ → Prop}
    (h : (lts prog).Reach ok w)
    : ∀ p q, w.taken p q ≤ (w.sent q p).length := by
  apply LTS.Reach.invariant (I := fun w => ∀ p q, w.taken p q ≤ (w.sent q p).length) _ _ h
  . rintro w rfl p q
    exact Nat.le_refl 0
  . intro w a w' _ hle hst _
    cases hst with
    | input => exact taken_le_of_emit hle
    | receive hget => exact taken_le_of_emit (taken_le_of_take hle hget)

/--
The rule for what holds of each process, of what it has sent and of what it has received, whatever the
others do. `ok` is what every step of the run meets.
-/
theorem local_invariant {I : P → σ → (P → List μ) → (P → List μ) → Prop} {ok : Action P ι κ μ → Prop}
    (hinit : ∀ p, I p (prog.init p) (fun _ => []) (fun _ => []))
    (hinput : ∀ p i s sent received s' out, ok (.input p i) → I p s sent received →
      prog.input p i s = some (s', out) →
        I p s' (fun q => sent q ++ toDest out q) received)
    (hreceive : ∀ p q m k s sent received s' out, ok (.receive p q m k) → I p s sent received →
      prog.receive p m (q, k) s = some (s', out) →
        I p s' (fun r => sent r ++ toDest out r) (Function.update received q (received q ++ [m])))
    (h : (lts prog).Reach (fun _ a _ => ok a) w)
    : ∀ p, I p (w.node p) (w.sent p) (w.received p) := by
  induction h with
  | init h0 =>
    obtain rfl := h0
    intro p
    exact hinit p
  | @step w w' a hr hst hok ih =>
    have hle := taken_le_of_reach hr
    intro r
    cases hst with
    | @input p i s out h =>
      rw [emit_received hle]
      by_cases hp : r = p
      . subst hp
        simp only [World.emit, Function.update_self]
        exact hinput r i _ _ _ _ _ hok (ih r) h
      . simp only [World.emit, Function.update_of_ne hp]
        exact ih r
    | @receive p q m k s out hget h =>
      rw [emit_received (taken_le_of_take hle hget)]
      by_cases hp : r = p
      . subst hp
        rw [take_received hget]
        simp only [World.emit, World.take, Function.update_self]
        exact hreceive r q m k _ _ _ _ _ hok (ih r) h
      . rw [take_received_of_ne hp]
        simp only [World.emit, World.take, Function.update_of_ne hp]
        exact ih r

end FIFONetwork
