import ScalaNeko.Lib.AsyncNetwork
import ScalaNeko.Lib.Refinement

/-!
Asynchronous networks with a clock: every envelope is handed out at a time that is fixed when it is
sent, and the clock does not pass over any.
-/

namespace TimedNetwork

open AsyncNetwork (Envelope Program Action)

structure World (P σ μ T : Type) where
  now : T
  node : P → σ
  -- with the time of the delivery
  net : Multiset (Envelope P μ × T)

inductive Label (P ι κ μ T : Type) where
  | act (action : Action P ι κ μ) (out : List (Envelope P μ × T))
  | wait

variable {P σ ι κ μ T : Type}

def World.untimed (w : World P σ μ T) : AsyncNetwork.World P σ μ where
  node := w.node
  net := w.net.map Prod.fst

variable [DecidableEq P] [LinearOrder T]

inductive Step (prog : Program P σ ι κ μ) : World P σ μ T → Label P ι κ μ T → World P σ μ T → Prop where
  | input {w : World P σ μ T} {p : P} {i : ι} {s : σ} {out : List (Envelope P μ × T)} :
      prog.input p i (w.node p) = some (s, out.map Prod.fst) →
      Step prog w (.act (.input p i) out) ⟨w.now, Function.update w.node p s, ↑out + w.net⟩
  | receive {w : World P σ μ T} {p : P} {m : μ} {k : κ} {s : σ} {out : List (Envelope P μ × T)}
      {rest : Multiset (Envelope P μ × T)} :
      w.net = (⟨p, m⟩, w.now) ::ₘ rest →
      prog.receive p m k (w.node p) = some (s, out.map Prod.fst) →
      Step prog w (.act (.receive p m k) out) ⟨w.now, Function.update w.node p s, ↑out + rest⟩
  | wait {w : World P σ μ T} (now : T) :
      w.now ≤ now →
      (∀ x, x ∈ w.net → now ≤ x.2) →
      Step prog w .wait { w with now }

def initWorld (prog : Program P σ ι κ μ) (start : T) : World P σ μ T where
  now := start
  node := prog.init
  net := 0

def lts (prog : Program P σ ι κ μ) (start : T) : LTS (World P σ μ T) (Label P ι κ μ T) where
  init := fun w => w = initWorld prog start
  step := Step prog

variable {prog : Program P σ ι κ μ} {start : T} {w w' : World P σ μ T}

theorem untimed_step {a : Action P ι κ μ} {out : List (Envelope P μ × T)}
    (h : Step prog w (.act a out) w')
    : prog.Step w.untimed ⟨a, out.map Prod.fst⟩ w'.untimed := by
  cases h with
  | input h =>
    unfold World.untimed
    rw [Multiset.map_add]
    exact .input h
  | @receive p m k s _ rest hnet h =>
    have hnet' : w.untimed.net = ⟨p, m⟩ ::ₘ rest.map Prod.fst := by
      unfold World.untimed
      rw [hnet, Multiset.map_cons]
    unfold World.untimed
    rw [Multiset.map_add]
    exact .receive hnet' h

/--
Without the clock, the runs are those of an asynchronous network.
-/
theorem untimed_reach {ok : World P σ μ T → Label P ι κ μ T → World P σ μ T → Prop}
    {ok' : AsyncNetwork.World P σ μ → AsyncNetwork.Label P ι κ μ → AsyncNetwork.World P σ μ → Prop}
    (hok : ∀ w a out w', ok w (.act a out) w' → ok' w.untimed ⟨a, out.map Prod.fst⟩ w'.untimed)
    (h : (lts prog start).Reach ok w)
    : prog.lts.Reach ok' w.untimed := by
  apply LTS.Reach.refine World.untimed _ _ h
  . rintro w rfl
    rfl
  . intro w l w' _ hst hl
    cases l with
    | act a out => exact .single _ (untimed_step hst) (hok _ _ _ _ hl)
    | wait =>
      cases hst
      exact .refl

/--
What is sent for no time in the past is in flight for none.
-/
theorem not_overdue (h : (lts prog start).Reach
      (fun w l _ => ∀ a out, l = .act a out → ∀ x, x ∈ out → w.now ≤ x.2) w)
    : ∀ x, x ∈ w.net → w.now ≤ x.2 := by
  apply LTS.Reach.invariant (I := fun w => ∀ x, x ∈ w.net → w.now ≤ x.2) _ _ h
  . rintro w rfl x hx
    cases Multiset.notMem_zero x hx
  . intro w l w' _ hnet hst hl
    cases hst with
    | input _ =>
      intro x hx
      rcases Multiset.mem_add.mp hx with hx | hx
      . exact hl _ _ rfl x hx
      . exact hnet x hx
    | receive heq _ =>
      intro x hx
      rcases Multiset.mem_add.mp hx with hx | hx
      . exact hl _ _ rfl x hx
      . apply hnet
        rw [heq]
        exact Multiset.mem_cons_of_mem hx
    | wait _ _ hall => exact hall

/--
What is sent for a time that is not far is in flight for one.
-/
theorem near (bound : T → T) (hbound : Monotone bound) (h : (lts prog start).Reach
      (fun w l _ => ∀ a out, l = .act a out → ∀ x, x ∈ out → x.2 ≤ bound w.now) w)
    : ∀ x, x ∈ w.net → x.2 ≤ bound w.now := by
  apply LTS.Reach.invariant (I := fun w => ∀ x, x ∈ w.net → x.2 ≤ bound w.now) _ _ h
  . rintro w rfl x hx
    cases Multiset.notMem_zero x hx
  . intro w l w' _ hnet hst hl
    cases hst with
    | input _ =>
      intro x hx
      rcases Multiset.mem_add.mp hx with hx | hx
      . exact hl _ _ rfl x hx
      . exact hnet x hx
    | receive heq _ =>
      intro x hx
      rcases Multiset.mem_add.mp hx with hx | hx
      . exact hl _ _ rfl x hx
      . apply hnet
        rw [heq]
        exact Multiset.mem_cons_of_mem hx
    | wait _ hnow _ =>
      intro x hx
      exact le_trans (hnet x hx) (hbound hnow)

/--
Before the clock passes a deadline, everything that is due until then has been handed out.
-/
theorem exists_before_deadline {ok : World P σ μ T → Label P ι κ μ T → World P σ μ T → Prop} (deadline : T)
    (hp : (lts prog start).Path ok w w') (hearly : w.now ≤ deadline) (hlate : deadline < w'.now)
    : ∃ v, (lts prog start).Path ok w v ∧ (lts prog start).Path ok v w' ∧ v.now ≤ deadline
        ∧ ∀ x, x ∈ v.net → deadline < x.2 := by
  induction hp with
  | refl => exact absurd hearly (not_le.mpr hlate)
  | @tail t u l hp hst hok ih =>
    by_cases hnow : deadline < t.now
    . obtain ⟨v, hbefore, hafter, hv⟩ := ih hnow
      exact ⟨v, hbefore, hafter.tail hst hok, hv⟩
    . rw [not_lt] at hnow
      have hafter := LTS.Path.single l hst hok
      cases hst with
      | input _ => exact absurd hnow (not_le.mpr hlate)
      | receive _ _ => exact absurd hnow (not_le.mpr hlate)
      | wait now _ hall => exact ⟨t, hp, hafter, hnow, fun x hx => lt_of_lt_of_le hlate (hall x hx)⟩

end TimedNetwork
