import ScalaNeko.Lib.FIFONetwork

/-!
Runs that are seen through an abstraction function, and several receptions from one FIFO channel at
once.
-/

namespace LTS

variable {σ τ α β : Type} {T : LTS σ α} {U : LTS τ β} {ok : σ → α → σ → Prop}

theorem Path.single {s t : σ} (a : α) (hst : T.step s a t) (hok : ok s a t) : T.Path ok s t :=
  .tail .refl hst hok

theorem Path.mono {ok' : σ → α → σ → Prop} (hok : ∀ s a t, ok s a t → ok' s a t) {s t : σ}
    (hp : T.Path ok s t)
    : T.Path ok' s t := by
  induction hp with
  | refl => exact .refl
  | tail _ hst hok' ih => exact .tail ih hst (hok _ _ _ hok')

theorem Path.trans {s t u : σ} (hst : T.Path ok s t) (htu : T.Path ok t u) : T.Path ok s u := by
  induction htu with
  | refl => exact hst
  | tail _ hstep hok ih => exact .tail ih hstep hok

/--
What holds at the end of a path held all along, if no step makes it true.
-/
theorem Path.backward {I : σ → Prop} (hback : ∀ s a t, T.step s a t → I t → I s) {s t : σ}
    (hp : T.Path (fun _ _ _ => True) s t) (ht : I t)
    : T.Path (fun _ _ t => I t) s t := by
  induction hp with
  | refl => exact .refl
  | tail _ hst _ ih => exact .tail (ih (hback _ _ _ hst ht)) hst ht

/--
The rule for refinement: what `T` does in one step from a state that it reaches, `U` does in any number
of steps between the images.
-/
theorem Reach.refine {ok' : τ → β → τ → Prop} (f : σ → τ) (hinit : ∀ s, T.init s → U.init (f s))
    (hstep : ∀ s a t, T.Reach ok s → T.step s a t → ok s a t → U.Path ok' (f s) (f t)) {s : σ}
    (h : T.Reach ok s)
    : U.Reach ok' (f s) := by
  induction h with
  | init h0 => exact .init (hinit _ h0)
  | step hr hst hok ih => exact (hstep _ _ _ hr hst hok).reach ih

-- The same for what follows a state that `T` reaches.
theorem Path.refine {ok' : τ → β → τ → Prop} (f : σ → τ)
    (hstep : ∀ s a t, T.Reach ok s → T.step s a t → ok s a t → U.Path ok' (f s) (f t)) {s t : σ}
    (h : T.Reach ok s) (hp : T.Path ok s t)
    : U.Path ok' (f s) (f t) := by
  induction hp with
  | refl => exact .refl
  | tail hp hst hok ih => exact ih.trans (hstep _ _ _ (hp.reach h) hst hok)

end LTS

namespace FIFONetwork

open AsyncNetwork (Envelope Program)

variable {P σ ι κ μ : Type} [DecidableEq P]

-- What has been sent is not taken back.
theorem sent_prefix {prog : Program P σ ι (P × κ) μ} {ok : World P σ μ → Action P ι κ μ → World P σ μ → Prop}
    {w w' : World P σ μ} (hp : (lts prog).Path ok w w') (p q : P)
    : w.sent p q <+: w'.sent p q := by
  have hemit : ∀ (w : World P σ μ) (r : P) (s : σ) (out : List (Envelope P μ)),
      w.sent p q <+: (w.emit r s out).sent p q := by
    intro w r s out
    unfold World.emit
    dsimp only
    by_cases hr : p = r
    . subst hr
      rw [Function.update_self]
      exact List.prefix_append _ _
    . simp only [Function.update_of_ne hr, List.prefix_rfl]
  apply hp.stable (I := fun w' => w.sent p q <+: w'.sent p q) _ List.prefix_rfl
  intro v l v' hprefix hst _
  cases hst with
  | input _ => exact hprefix.trans (hemit v _ _ _)
  | receive _ _ => exact hprefix.trans (hemit (v.take _ _) _ _ _)

/--
Programs that do in each step what those of `prog'` do with another label.
-/
theorem reach_relabel {ι' κ' : Type} {prog : Program P σ ι (P × κ) μ} {prog' : Program P σ ι' (P × κ') μ}
    {ok' : Action P ι' κ' μ → Prop} (f : ι → ι') (g : κ → κ') (hinit : prog.init = prog'.init)
    (hinput : ∀ p i s r, prog.input p i s = some r →
      ok' (.input p (f i)) ∧ prog'.input p (f i) s = some r)
    (hreceive : ∀ p q m k s r, prog.receive p m (q, k) s = some r →
      ok' (.receive p q m (g k)) ∧ prog'.receive p m (q, g k) s = some r)
    {w : World P σ μ} (h : (lts prog).Reachable w)
    : (lts prog').Reach (fun _ a _ => ok' a) w := by
  apply LTS.Reach.refine id _ _ h
  . rintro w rfl
    show initWorld prog = initWorld prog'
    unfold initWorld
    rw [hinit]
  . intro w a w' _ hst _
    cases hst with
    | input h =>
      obtain ⟨hok, h⟩ := hinput _ _ _ _ h
      exact .single _ (Step.input h) hok
    | receive hget h =>
      obtain ⟨hok, h⟩ := hreceive _ _ _ _ _ _ h
      exact .single _ (Step.receive hget h) hok

/--
The receptions of several messages from one process, one after the other.
-/
def receiveAll (prog : Program P σ ι (P × κ) μ) (p q : P)
    : List (μ × κ) → σ → Option (σ × List (Envelope P μ))
  | [], s => some (s, [])
  | (m, k) :: rest, s => do
    let (s, out) ← prog.receive p m (q, k) s
    let (s, outs) ← receiveAll prog p q rest s
    return (s, out ++ outs)

namespace World

def takeMany (w : World P σ μ) (p q : P) (n : Nat) : World P σ μ :=
  { w with taken := Function.update w.taken p (Function.update (w.taken p) q (w.taken p q + n)) }

variable {w : World P σ μ} {p q : P}

theorem emit_nil : w.emit p (w.node p) [] = w := by
  unfold emit
  simp

theorem takeMany_zero : w.takeMany p q 0 = w := by
  unfold takeMany
  simp

theorem emit_emit (s s' : σ) (out out' : List (Envelope P μ))
    : (w.emit p s out).emit p s' out' = w.emit p s' (out ++ out') := by
  unfold emit
  simp [toDest_append]

theorem takeMany_emit (s : σ) (out : List (Envelope P μ)) (n : Nat)
    : (w.emit p s out).takeMany p q n = (w.takeMany p q n).emit p s out := rfl

theorem takeMany_take (n : Nat) : (w.take p q).takeMany p q n = w.takeMany p q (n + 1) := by
  unfold take takeMany
  simp [Nat.add_assoc, Nat.add_comm 1]

end World

theorem path_receiveAll {prog : Program P σ ι (P × κ) μ} {ok : Action P ι κ μ → Prop} {p q : P}
    {ms : List (μ × κ)} {s : σ} {out : List (Envelope P μ)} {w : World P σ μ}
    (hok : ∀ m k, (m, k) ∈ ms → ok (.receive p q m k))
    (hms : ms.map Prod.fst <+: (w.sent q p).drop (w.taken p q))
    (h : receiveAll prog p q ms (w.node p) = some (s, out))
    : (lts prog).Path (fun _ a _ => ok a) w ((w.takeMany p q ms.length).emit p s out) := by
  induction ms generalizing w s out with
  | nil =>
    cases h
    rw [List.length_nil, World.takeMany_zero, World.emit_nil]
    exact .refl
  | cons mk ms ih =>
    obtain ⟨m, k⟩ := mk
    simp only [receiveAll, Option.bind_eq_bind, Option.bind_eq_some_iff, Prod.exists, Option.pure_def,
      Option.some.injEq, Prod.mk.injEq] at h
    obtain ⟨s₁, out₁, h₁, s₂, out₂, h₂, rfl, rfl⟩ := h
    obtain ⟨rest, hrest⟩ := hms
    rw [List.map_cons, List.cons_append] at hrest
    have hget : (w.sent q p)[w.taken p q]? = some m := by
      have hhead := congrArg List.head? hrest
      rw [List.head?_drop] at hhead
      exact hhead.symm
    have htail : (w.sent q p).drop (w.taken p q + 1) = ms.map Prod.fst ++ rest := by
      have htail := congrArg List.tail hrest
      rw [List.tail_drop] at htail
      exact htail.symm
    have hstep : (lts prog).step w (.receive p q m k) ((w.take p q).emit p s₁ out₁) :=
      .receive hget h₁
    apply (LTS.Path.single _ hstep (hok m k List.mem_cons_self)).trans
    have hnode : ((w.take p q).emit p s₁ out₁).node p = s₁ := Function.update_self _ _ _
    have htaken : ((w.take p q).emit p s₁ out₁).taken p q = w.taken p q + 1 := by
      simp [World.emit, World.take]
    have hlt := (List.getElem?_eq_some_iff.mp hget).1
    have hsent : ∃ more, ((w.take p q).emit p s₁ out₁).sent q p = w.sent q p ++ more := by
      by_cases hq : q = p
      . subst hq
        exact ⟨toDest out₁ q, by simp [World.emit, World.take]⟩
      . exact ⟨[], by simp [World.emit, World.take, Function.update_of_ne hq]⟩
    obtain ⟨more, hsent⟩ := hsent
    have hrest : ms.map Prod.fst <+: (((w.take p q).emit p s₁ out₁).sent q p).drop
        (((w.take p q).emit p s₁ out₁).taken p q) := by
      rw [htaken, hsent, List.drop_append_of_le_length hlt, htail, List.append_assoc]
      exact List.prefix_append _ _
    rw [← hnode] at h₂
    have hpath := ih (fun m k hmk => hok m k (List.mem_cons_of_mem _ hmk)) hrest h₂
    rw [World.takeMany_emit, World.emit_emit, World.takeMany_take] at hpath
    exact hpath

end FIFONetwork
