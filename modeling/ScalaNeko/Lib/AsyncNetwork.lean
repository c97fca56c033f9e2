import Mathlib.Data.Multiset.Filter
import Mathlib.Logic.Function.Basic
import ScalaNeko.Lib.Transition

/-!
Asynchronous message passing: processes that run one program each, and a network that holds a
multiset of envelopes and hands out any of them at any time, each exactly once.
-/

namespace AsyncNetwork

structure Envelope (P μ : Type) where
  dest : P
  msg : μ
  deriving DecidableEq

/--
What every process runs. An input comes from the layer above, `κ` is what the environment chooses
while a message is handled. `none` says that the step is not possible.
-/
structure Program (P σ ι κ μ : Type) where
  init : P → σ
  input : P → ι → σ → Option (σ × List (Envelope P μ))
  receive : P → μ → κ → σ → Option (σ × List (Envelope P μ))

structure World (P σ μ : Type) where
  node : P → σ
  net : Multiset (Envelope P μ)

inductive Action (P ι κ μ : Type) where
  | input (p : P) (i : ι)
  | receive (p : P) (m : μ) (k : κ)

structure Label (P ι κ μ : Type) where
  action : Action P ι κ μ
  out : List (Envelope P μ)

/--
A field that the step of one process does not change.
-/
theorem field_update {P σ γ : Type} [DecidableEq P] {node : P → σ} {p : P} {s : σ} (field : σ → γ)
    (heq : field s = field (node p)) (q : P)
    : field (Function.update node p s q) = field (node q) := by
  by_cases hq : q = p
  . rw [hq, Function.update_self, heq]
  . rw [Function.update_of_ne hq]

variable {P σ ι κ μ : Type}

def undelivered [DecidableEq P] (net : Multiset (Envelope P μ)) (p : P) : Multiset μ :=
  (net.filter (fun e => e.dest = p)).map Envelope.msg

section Undelivered

variable [DecidableEq P] {net net' : Multiset (Envelope P μ)}

@[simp]
theorem undelivered_zero (p : P) : undelivered (0 : Multiset (Envelope P μ)) p = 0 := rfl

theorem undelivered_add (p : P)
    : undelivered (net + net') p = undelivered net p + undelivered net' p := by
  rw [undelivered, Multiset.filter_add, Multiset.map_add]
  rfl

theorem undelivered_taken {p : P} {m : μ} (hnet : net = ⟨p, m⟩ ::ₘ net')
    : undelivered net p = m ::ₘ undelivered net' p := by
  have hfilter := Multiset.filter_cons_of_pos (p := fun x : Envelope P μ => x.dest = p)
    (a := ⟨p, m⟩) net' rfl
  rw [hnet, undelivered, hfilter, Multiset.map_cons]
  rfl

theorem undelivered_rest {p : P} {m : μ} (hnet : net = ⟨p, m⟩ ::ₘ net')
    : undelivered net' = Function.update (undelivered net) p (undelivered net' p) := by
  funext q
  by_cases hq : q = p
  . rw [hq, Function.update_self]
  . have hne : ¬ p = q := fun heq => hq heq.symm
    have hfilter := Multiset.filter_cons_of_neg (p := fun x : Envelope P μ => x.dest = q)
      (a := ⟨p, m⟩) net' hne
    rw [Function.update_of_ne hq, hnet, undelivered, undelivered, hfilter]

end Undelivered

def Action.proc : Action P ι κ μ → P
  | .input p _ => p
  | .receive p _ _ => p

def Action.taken : Action P ι κ μ → Multiset (Envelope P μ)
  | .input _ _ => 0
  | .receive p m _ => {⟨p, m⟩}

namespace Program

variable [DecidableEq P] (prog : Program P σ ι κ μ)

inductive Step : World P σ μ → Label P ι κ μ → World P σ μ → Prop where
  | input {w : World P σ μ} {p : P} {i : ι} {s : σ} {out : List (Envelope P μ)} :
      prog.input p i (w.node p) = some (s, out) →
      Step w ⟨.input p i, out⟩ ⟨Function.update w.node p s, ↑out + w.net⟩
  | receive {w : World P σ μ} {p : P} {m : μ} {k : κ} {s : σ} {out : List (Envelope P μ)}
      {rest : Multiset (Envelope P μ)} :
      w.net = ⟨p, m⟩ ::ₘ rest →
      prog.receive p m k (w.node p) = some (s, out) →
      Step w ⟨.receive p m k, out⟩ ⟨Function.update w.node p s, ↑out + rest⟩

def exec (a : Action P ι κ μ) (s : σ) : Option (σ × List (Envelope P μ)) :=
  match a with
  | .input p i => prog.input p i s
  | .receive p m k => prog.receive p m k s

def initWorld : World P σ μ where
  node := prog.init
  net := 0

def lts : LTS (World P σ μ) (Label P ι κ μ) where
  init := fun w => w = prog.initWorld
  step := prog.Step

/--
What one process can be after the receptions of `received` in this order, with inputs in between.
-/
inductive After (p : P) : List μ → σ → Prop where
  | init : After p [] (prog.init p)
  | input {received : List μ} {s s' : σ} {out : List (Envelope P μ)} (i : ι) :
      After p received s →
      prog.input p i s = some (s', out) →
      After p received s'
  | receive {received : List μ} {s s' : σ} {out : List (Envelope P μ)} (m : μ) (k : κ) :
      After p received s →
      prog.receive p m k s = some (s', out) →
      After p (received ++ [m]) s'

variable {prog} {w w' : World P σ μ} {l : Label P ι κ μ}

theorem Reach.input {ok : World P σ μ → Label P ι κ μ → World P σ μ → Prop} {s : σ}
    {out : List (Envelope P μ)} (h : prog.lts.Reach ok w) (p : P) (i : ι)
    (hinput : prog.input p i (w.node p) = some (s, out))
    (hok : ok w ⟨.input p i, out⟩ ⟨Function.update w.node p s, ↑out + w.net⟩)
    : prog.lts.Reach ok ⟨Function.update w.node p s, ↑out + w.net⟩ :=
  .step h (.input hinput) hok

theorem Reach.receive {ok : World P σ μ → Label P ι κ μ → World P σ μ → Prop} {s : σ}
    {out : List (Envelope P μ)} (h : prog.lts.Reach ok w) (p : P) (m : μ) (k : κ)
    (rest : Multiset (Envelope P μ)) (hnet : w.net = ⟨p, m⟩ ::ₘ rest)
    (hreceive : prog.receive p m k (w.node p) = some (s, out))
    (hok : ok w ⟨.receive p m k, out⟩ ⟨Function.update w.node p s, ↑out + rest⟩)
    : prog.lts.Reach ok ⟨Function.update w.node p s, ↑out + rest⟩ :=
  .step h (.receive hnet hreceive) hok

theorem Step.cases_node (h : prog.Step w l w')
    : ∃ s, w'.node = Function.update w.node l.action.proc s
        ∧ ((∃ i, prog.input l.action.proc i (w.node l.action.proc) = some (s, l.out)
              ∧ w'.net = ↑l.out + w.net)
            ∨ (∃ m k rest, prog.receive l.action.proc m k (w.node l.action.proc) = some (s, l.out)
              ∧ w.net = ⟨l.action.proc, m⟩ ::ₘ rest ∧ w'.net = ↑l.out + rest)) := by
  cases h with
  | input h => exact ⟨_, rfl, .inl ⟨_, h, rfl⟩⟩
  | receive hnet h => exact ⟨_, rfl, .inr ⟨_, _, _, h, hnet, rfl⟩⟩

theorem Step.effect {a : Action P ι κ μ} {out : List (Envelope P μ)} (h : prog.Step w ⟨a, out⟩ w')
    : ∃ s rest, prog.exec a (w.node a.proc) = some (s, out)
        ∧ w'.node = Function.update w.node a.proc s
        ∧ w.net = a.taken + rest ∧ w'.net = ↑out + rest := by
  cases h with
  | input h => exact ⟨_, _, h, rfl, (Multiset.zero_add _).symm, rfl⟩
  | receive hnet h =>
    refine ⟨_, _, h, rfl, ?_, rfl⟩
    rw [hnet, ← Multiset.singleton_add]
    rfl

theorem local_invariant {I : P → σ → Prop} {ok : World P σ μ → Label P ι κ μ → World P σ μ → Prop}
    (hinit : ∀ p, I p (prog.init p))
    (hinput : ∀ p i s s' out, I p s → prog.input p i s = some (s', out) → I p s')
    (hreceive : ∀ p m k s s' out, I p s → prog.receive p m k s = some (s', out) → I p s')
    (h : prog.lts.Reach ok w)
    : ∀ p, I p (w.node p) := by
  apply LTS.Reach.invariant (I := fun w => ∀ p, I p (w.node p)) _ _ h
  . intro s hs
    rw [hs]
    exact hinit
  . intro s a t _ ih hst _ p
    obtain ⟨s', hnode, h⟩ := Step.cases_node hst
    rw [hnode]
    by_cases hp : p = a.action.proc
    . subst hp
      rw [Function.update_self]
      rcases h with ⟨i, h, -⟩ | ⟨m, k, rest, h, -, -⟩
      . exact hinput _ _ _ _ _ (ih _) h
      . exact hreceive _ _ _ _ _ _ (ih _) h
    . rw [Function.update_of_ne hp]
      exact ih p

end Program

end AsyncNetwork
