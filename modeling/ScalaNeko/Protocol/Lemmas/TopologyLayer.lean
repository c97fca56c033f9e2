import ScalaNeko.NekoSimSystem.Lemmas
import ScalaNeko.Protocol.Impl.TopologyLayer
import ScalaNeko.Protocol.Lemmas.ArbitraryTopology

/-!
Processes over an `ArbitraryTopology` on a clique do what they do over a network with this topology.
-/

open AsyncNetwork (Envelope Program)
open Message
open NekoSimSystem (Meets Regular Idle)

namespace ArbitraryTopology

variable {N : Nat} {σ ι κ S M : Type} [Message N M] {g : FinGraph Int} {p : PID N}

section Emit

-- What a network with the topology puts in flight.
abbrev nativeEmit (g : FinGraph Int) : List (Event S M) → List (Envelope (PID N) M) :=
  NekoProcess.emit (Topology.graph g).neighborsForPID

-- The message in a shell.
def content (x : Envelope (PID N) (MessageShell N M) × Int) : Envelope (PID N) M × Int :=
  (⟨x.1.dest, x.1.msg.content⟩, x.2)

theorem flatMap_sendTo {net : Network N M Unit} {m : M} {R : PID N → Prop} [DecidablePred R]
    (hdelay : ∀ dest m, net.delayForMessage dest m = some ())
    (hR : ∀ q, q ∈ net.neighborhoodFor (fromPID m) ↔ R q) (dests : List (PID N))
    : (dests.flatMap (net.sendTo · m)).map Prod.fst = (dests.filter (fun q => R q)).map (⟨·, m⟩) := by
  induction dests with
  | nil => rfl
  | cons q dests ih =>
    rw [List.flatMap_cons, List.map_append, ih, Network.sendTo, hdelay]
    by_cases hq : R q
    . rw [if_pos ((hR q).mpr hq), List.filter_cons_of_pos (by simpa using hq)]
      rfl
    . rw [if_neg (fun h => hq ((hR q).mp h)), List.filter_cons_of_neg (by simpa using hq)]
      rfl

theorem nativeEmit_message {m : M} (hnode : (p.val : Int) ∈ g.nodes) (hfrom : fromPID m = p)
    (hb : isBroadcast m = false)
    : nativeEmit g [(.message m : Event S M)]
      = ((destList m).filter (fun q => Linked g p q)).map (⟨·, m⟩) := by
  unfold nativeEmit NekoProcess.emit
  rw [List.flatMap_singleton, Network.send, if_neg (by simp [hb])]
  apply flatMap_sendTo (fun _ _ => rfl)
  intro q
  rw [hfrom]
  exact mem_neighborhoodFor hnode

theorem exists_map_eq {α β : Type} {f : α → β} {l : List β} {m : Multiset α} (h : m.map f = ↑l)
    : ∃ t : List α, ↑t = m ∧ t.map f = l := by
  induction l generalizing m with
  | nil => exact ⟨[], (Multiset.map_eq_zero.mp h).symm, rfl⟩
  | cons b l ih =>
    have hb : b ∈ m.map f := by
      rw [h]
      exact List.mem_cons_self
    obtain ⟨a, ha, rfl⟩ := Multiset.mem_map.mp hb
    obtain ⟨m, rfl⟩ := Multiset.exists_cons_of_mem ha
    rw [Multiset.map_cons, ← Multiset.cons_coe, Multiset.cons_inj_right] at h
    obtain ⟨t, rfl, rfl⟩ := ih h
    exact ⟨a :: t, rfl, rfl⟩

/--
What the emulation sends, to itself and in shells, is what the network with the topology puts in flight.
-/
theorem exists_native (hnode : (p.val : Int) ∈ g.nodes) {e : Event S M}
    (hfrom : ∀ m, e = .message m → fromPID m = p ∧ isBroadcast m = false)
    {T : List (Envelope (PID N) (MessageShell N M) × Int)}
    (hT : T.map Prod.fst = transmit ((⟨p, g.neighbors p.val⟩ : ArbitraryTopology N).onSend e).1) (now : Int)
    : ∃ E : List (Envelope (PID N) M × Int), E.map Prod.fst = nativeEmit g [e]
        ∧ Multiset.ofList E
          = Multiset.ofList (((⟨p, g.neighbors p.val⟩ : ArbitraryTopology N).onSend e).2.map
              (fun m => ((⟨p, m⟩ : Envelope (PID N) M), now))) + Multiset.ofList (T.map content) := by
  cases e with
  | signal ie =>
    rw [List.map_eq_nil_iff.mp hT]
    exact ⟨[], rfl, rfl⟩
  | message m =>
    have hshell : T.map (Prod.fst ∘ content)
        = (destList (⟨p, destinations m ∩ PID.ofSet (g.neighbors p.val), m⟩ : MessageShell N M)).map (⟨·, m⟩) := by
      have hmap := congrArg (List.map
        (fun env : Envelope (PID N) (MessageShell N M) => (⟨env.dest, env.msg.content⟩ : Envelope (PID N) M))) hT
      rw [List.map_map] at hmap
      refine hmap.trans ?_
      simp only [onSend, transmit, List.flatMap_singleton, fanOut, List.map_map]
      rfl
    rw [nativeEmit_message hnode (hfrom m rfl).1 (hfrom m rfl).2]
    have hperm := (receivers_perm (g := g) (p := p) (m := m)).map (fun q => (⟨q, m⟩ : Envelope (PID N) M))
    rw [List.map_append, ← hshell] at hperm
    have hfst : Multiset.map Prod.fst
        (Multiset.ofList
            (((⟨p, g.neighbors p.val⟩ : ArbitraryTopology N).onSend (.message m : Event S M)).2.map
              (fun m => ((⟨p, m⟩ : Envelope (PID N) M), now))) + Multiset.ofList (T.map content))
        = ↑(((destList m).filter (fun q => Linked g p q)).map (fun q => (⟨q, m⟩ : Envelope (PID N) M))) := by
      rw [← Multiset.coe_eq_coe.mpr hperm, Multiset.map_add, Multiset.map_coe, Multiset.map_coe,
        ← Multiset.coe_add, List.map_map, List.map_map]
      congr 2
      simp only [onSend]
      split
      . rfl
      . rfl
    obtain ⟨E, hE, hmap⟩ := exists_map_eq hfst
    exact ⟨E, hmap, hE⟩

end Emit

section Run

/--
Sends that are left in `frames`, and messages that are about to be delivered.
-/
inductive Pending : List (Frame σ S M) → List (Event S M) → List M → Prop where
  | nil : Pending [] [] []
  | resume {frames : List (Frame σ S M)} {sends : List (Event S M)} {ms : List M}
      (own : List (Event S M)) (h : Pending frames sends ms)
      : Pending (.resume (.sending own) :: frames) (own ++ sends) ms
  | deliver {frames : List (Frame σ S M)} {sends : List (Event S M)} {ms : List M}
      (m : M) (h : Pending frames sends ms)
      : Pending (.deliver m :: frames) sends (m :: ms)

omit [Message N M] in
theorem Pending.deliveries {frames : List (Frame σ S M)} {sends : List (Event S M)} {ms : List M}
    (h : Pending frames sends ms) (ms' : List M)
    : Pending (ms'.map .deliver ++ frames) sends (ms' ++ ms) := by
  induction ms' with
  | nil => exact h
  | cons m ms' ih => exact .deliver m ih

theorem nativeEmit_append (sends sends' : List (Event S M))
    : (nativeEmit g (sends ++ sends') : List (Envelope (PID N) M))
      = nativeEmit g sends ++ nativeEmit g sends' := by
  simp [NekoProcess.emit]

-- Messages that reach their destination at this time.
abbrev arriving (p : PID N) (now : Int) (ms : List M) : Multiset (Envelope (PID N) M × Int) :=
  ↑(ms.map (fun m => ((⟨p, m⟩ : Envelope (PID N) M), now)))

variable {proc : NekoProcess N σ ι κ S M}

/--
On a network with the topology, the process sends `sends` and receives `ms`, which takes the protocols
above from `s` to `s'` and leaves `T` in flight.
-/
def Replays (g : FinGraph Int) (proc : NekoProcess N σ ι κ S M) (p : PID N) (now : Int)
    (sends : List (Event S M)) (ms : List M) (s s' : σ) (T : List (Envelope (PID N) M × Int))
    : Prop :=
  ∀ (node : PID N → σ) (rest : Multiset (Envelope (PID N) M × Int)),
    ∃ F : List (Envelope (PID N) M × Int), F.map Prod.fst = nativeEmit g sends
      ∧ (TimedNetwork.lts (proc.program (nativeEmit g)) 0).Path (fun _ _ _ => True)
          ⟨now, Function.update node p s, arriving p now ms + (↑F + rest)⟩
          ⟨now, Function.update node p s', ↑T + rest⟩

theorem Replays.nil (now : Int) (s : σ) : Replays g proc p now [] [] s s [] := by
  intro node rest
  refine ⟨[], rfl, ?_⟩
  simp only [arriving, List.map_nil, Multiset.coe_nil, Multiset.zero_add]
  exact .refl

/--
What is sent to the process itself is received at once, before what is left.
-/
theorem Replays.send (hnode : (p.val : Int) ∈ g.nodes) {now : Int} {e : Event S M}
    {sends : List (Event S M)} {ms : List M} {s s' : σ}
    (hfrom : ∀ m, e = .message m → fromPID m = p ∧ isBroadcast m = false)
    {T : List (Envelope (PID N) (MessageShell N M) × Int)} {T' : List (Envelope (PID N) M × Int)}
    (hT : T.map Prod.fst = transmit ((⟨p, g.neighbors p.val⟩ : ArbitraryTopology N).onSend e).1)
    (h : Replays g proc p now sends
      (((⟨p, g.neighbors p.val⟩ : ArbitraryTopology N).onSend e).2 ++ ms) s s' T')
    : Replays g proc p now (e :: sends) ms s s' (T.map content ++ T') := by
  intro node rest
  obtain ⟨E, hE, heq⟩ := exists_native hnode hfrom hT now
  obtain ⟨F, hF, hpath⟩ := h node (↑(T.map content) + rest)
  refine ⟨E ++ F, ?_, ?_⟩
  . rw [List.map_append, hE, hF]
    exact (NekoProcess.emit_cons e sends).symm
  . have hstart : arriving p now ms + (Multiset.ofList (E ++ F) + rest)
        = arriving p now (((⟨p, g.neighbors p.val⟩ : ArbitraryTopology N).onSend e).2 ++ ms)
          + (Multiset.ofList F + (Multiset.ofList (T.map content) + rest)) := by
      rw [← Multiset.coe_add, heq]
      simp only [arriving, List.map_append, ← Multiset.coe_add]
      ac_rfl
    have hend : Multiset.ofList (T.map content ++ T') + rest
        = Multiset.ofList T' + (Multiset.ofList (T.map content) + rest) := by
      rw [← Multiset.coe_add]
      ac_rfl
    rw [hstart, hend]
    exact hpath

theorem Replays.deliver {now : Int} {m : M} {k : κ} {own sends : List (Event S M)} {ms : List M}
    {s s₁ s' : σ} {T : List (Envelope (PID N) M × Int)}
    (hdeliver : proc.deliver p m k s = some (s₁, own))
    (h : Replays g proc p now (own ++ sends) ms s₁ s' T)
    : Replays g proc p now sends (m :: ms) s s' T := by
  intro node rest
  obtain ⟨F, hF, hpath⟩ := h node rest
  rw [nativeEmit_append] at hF
  obtain ⟨A, B, rfl, hA, hB⟩ := List.map_eq_append_iff.mp hF
  refine ⟨B, hB, ?_⟩
  have hnet : arriving p now (m :: ms) + (Multiset.ofList B + rest)
      = (⟨p, m⟩, now) ::ₘ (arriving p now ms + (Multiset.ofList B + rest)) := by
    unfold arriving
    rw [List.map_cons, ← Multiset.cons_coe, Multiset.cons_add]
  have hstep : (TimedNetwork.lts (proc.program (nativeEmit g)) 0).step
      ⟨now, Function.update node p s, arriving p now (m :: ms) + (↑B + rest)⟩
      (.act (.receive p m k) A)
      ⟨now, Function.update (Function.update node p s) p s₁,
        ↑A + (arriving p now ms + (↑B + rest))⟩ := by
    apply TimedNetwork.Step.receive hnet
    dsimp only
    rw [Function.update_self, hA]
    exact NekoProcess.program_receive hdeliver (nativeEmit g)
  have hmiddle : Multiset.ofList A + (arriving p now ms + (Multiset.ofList B + rest))
      = arriving p now ms + (Multiset.ofList (A ++ B) + rest) := by
    rw [← Multiset.coe_add]
    ac_rfl
  apply (LTS.Path.single _ hstep trivial).trans
  rw [Function.update_idem, hmiddle]
  exact hpath

end Run

section Reactive

variable {proc : ReactiveProcess N σ ι κ S M}

@[simp]
theorem atomic_sending (sends : List (Event S M)) (s : σ)
    : (Reaction.sending sends s).atomic = (s, sends) := by
  induction sends with
  | nil => rfl
  | cons e sends ih => simp [Reaction.sending, Reaction.atomic, ih]

/--
A reaction with nothing left but `sends`, and then `frames`. The sends do not depend on what is delivered
in between, so that they can all come first.
-/
theorem replays_of_run (hlast : proc.SendsLast) (hown : proc.atomic.Own) (hb : NoBroadcast proc.atomic)
    (hnode : (p.val : Int) ∈ g.nodes) {choices : Nat → κ} {steps : Nat} {frames : List (Frame σ S M)}
    {sends left : List (Event S M)} {ms : List M} {s s' : σ} {outs : List (Event S (MessageShell N M))}
    (hpending : Pending frames left ms)
    (hfrom : ∀ m, .message m ∈ sends ++ left → fromPID m = p ∧ isBroadcast m = false)
    (h : run ⟨p, g.neighbors p.val⟩ proc choices steps (.sending sends s) frames = some (s', outs))
    {T : List (Envelope (PID N) (MessageShell N M) × Int)} (hT : T.map Prod.fst = transmit outs)
    (now : Int)
    : Replays g proc.atomic p now (sends ++ left) ms s s' (T.map content) := by
  induction steps generalizing frames sends left ms s outs T with
  | zero => cases h
  | succ steps ih =>
    cases sends with
    | nil =>
      cases hpending with
      | nil =>
        simp only [Reaction.sending, run, Option.some.injEq, Prod.mk.injEq] at h
        obtain ⟨rfl, rfl⟩ := h
        rw [List.map_eq_nil_iff.mp hT]
        exact .nil now _
      | resume own hpending => exact ih hpending hfrom h hT
      | deliver m hpending =>
        simp only [Reaction.sending, run, Option.bind_eq_bind, Option.bind_eq_some_iff] at h
        obtain ⟨r, hr, h⟩ := h
        obtain ⟨s₁, own, rfl⟩ := hlast.deliver _ _ _ _ _ hr
        have hdeliver : proc.atomic.deliver p m (choices steps) s = some (s₁, own) := by
          simp [ReactiveProcess.atomic, hr]
        have hcalls := ih hpending (by
          intro m' hm
          rcases List.mem_append.mp hm with hm | hm
          . exact ⟨hown.deliver _ _ _ _ _ _ hdeliver m' hm, hb.deliver _ _ _ _ _ _ hdeliver m' hm⟩
          . exact hfrom m' hm) h hT
        exact hcalls.deliver hdeliver
    | cons e sends =>
      simp only [Reaction.sending, run, Option.bind_eq_bind, Option.bind_eq_some_iff, Prod.exists,
        Option.pure_def, Option.some.injEq, Prod.mk.injEq] at h
      obtain ⟨s₁, outs, h, rfl, rfl⟩ := h
      have hsplit : transmit (((⟨p, g.neighbors p.val⟩ : ArbitraryTopology N).onSend e).1 ++ outs)
          = transmit ((⟨p, g.neighbors p.val⟩ : ArbitraryTopology N).onSend e).1 ++ transmit outs :=
        List.flatMap_append
      rw [hsplit] at hT
      obtain ⟨T₁, T₂, rfl, hT₁, hT₂⟩ := List.map_eq_append_iff.mp hT
      have hevent : ∀ m, e = .message m → fromPID m = p ∧ isBroadcast m = false := by
        rintro m rfl
        exact hfrom m List.mem_cons_self
      -- the nested deliveries start in `s`, before the rest of the sends
      have hnested : run ⟨p, g.neighbors p.val⟩ proc choices steps (.sending [] s) _ = some (s₁, outs) := h
      have hcalls := ih ((Pending.resume sends hpending).deliveries _) (by
        intro m hm
        exact hfrom m (List.mem_cons_of_mem _ hm)) hnested hT₂
      rw [List.map_append]
      exact hcalls.send hnode hevent hT₁

end Reactive

section Native

variable {proc : ReactiveProcess N σ ι κ S M} {w w' : TimedNetwork.World (PID N) σ (MessageShell N M) Int}

-- The shells are opened.
def native (w : TimedNetwork.World (PID N) σ (MessageShell N M) Int)
    : TimedNetwork.World (PID N) σ M Int where
  now := w.now
  node := w.node
  net := w.net.map content

theorem native_input (hlast : proc.SendsLast) (hown : proc.atomic.Own) (hb : NoBroadcast proc.atomic)
    {i : ι} {turn : Turn κ} {s : σ} {outs : List (Event S (MessageShell N M))}
    (h : (emulating g proc).input p (i, turn) (w.node p) = some (s, outs))
    {out : List (Envelope (PID N) (MessageShell N M) × Int)} (hout : out.map Prod.fst = transmit outs)
    : (TimedNetwork.lts (proc.atomic.program (nativeEmit g)) 0).Path (fun _ _ _ => True) (native w)
        ⟨w.now, Function.update w.node p s, Multiset.ofList (out.map content) + w.net.map content⟩ := by
  simp only [emulating, Option.bind_eq_bind, Option.bind_eq_some_iff] at h
  obtain ⟨a, ha, r, hr, hrun⟩ := h
  obtain ⟨hnode, rfl⟩ := create_eq_some ha
  obtain ⟨s₁, sends, rfl⟩ := hlast.input _ _ _ _ hr
  have hinput : proc.atomic.input p i (w.node p) = some (s₁, sends) := by
    simp [ReactiveProcess.atomic, hr]
  have hcalls := replays_of_run hlast hown hb hnode .nil (by
    intro m hm
    rw [List.append_nil] at hm
    exact ⟨hown.input _ _ _ _ _ hinput m hm, hb.input _ _ _ _ _ hinput m hm⟩) hrun hout w.now
  obtain ⟨F, hF, hpath⟩ := hcalls w.node (w.net.map content)
  rw [List.append_nil] at hF
  rw [arriving, List.map_nil, Multiset.coe_nil, Multiset.zero_add] at hpath
  have hstep : (TimedNetwork.lts (proc.atomic.program (nativeEmit g)) 0).step (native w)
      (.act (.input p i) F)
      ⟨w.now, Function.update w.node p s₁, Multiset.ofList F + w.net.map content⟩ := by
    apply TimedNetwork.Step.input
    rw [hF]
    exact NekoProcess.program_input hinput (nativeEmit g)
  exact (LTS.Path.single _ hstep trivial).trans hpath

theorem native_deliver (hlast : proc.SendsLast) (hown : proc.atomic.Own) (hb : NoBroadcast proc.atomic)
    {shell : MessageShell N M} {turn : Turn κ} {s : σ} {outs : List (Event S (MessageShell N M))}
    (h : (emulating g proc).deliver p shell turn (w.node p) = some (s, outs))
    {out : List (Envelope (PID N) (MessageShell N M) × Int)} (hout : out.map Prod.fst = transmit outs)
    {rest : Multiset (Envelope (PID N) (MessageShell N M) × Int)}
    (hnet : w.net = (⟨p, shell⟩, w.now) ::ₘ rest)
    : (TimedNetwork.lts (proc.atomic.program (nativeEmit g)) 0).Path (fun _ _ _ => True) (native w)
        ⟨w.now, Function.update w.node p s, Multiset.ofList (out.map content) + rest.map content⟩ := by
  simp only [emulating, Option.bind_eq_bind, Option.bind_eq_some_iff] at h
  obtain ⟨a, ha, hrun⟩ := h
  obtain ⟨hnode, rfl⟩ := create_eq_some ha
  have hcalls : Replays g proc.atomic p w.now ([] ++ []) (onReceive shell ++ []) (w.node p) s
      (out.map content) :=
    replays_of_run hlast hown hb hnode (Pending.nil.deliveries (onReceive shell)) (by
      intro m hm
      cases hm) (by rwa [List.append_nil]) hout w.now
  obtain ⟨F, hF, hpath⟩ := hcalls w.node (rest.map content)
  rw [List.map_eq_nil_iff.mp hF, List.append_nil, Function.update_eq_self, Multiset.coe_nil,
    Multiset.zero_add] at hpath
  have hnative : native w = ⟨w.now, w.node,
      arriving p w.now (onReceive shell) + rest.map content⟩ := by
    unfold native
    rw [hnet, Multiset.map_cons]
    rfl
  rw [hnative]
  exact hpath

theorem native_moves (hlast : proc.SendsLast) (hown : proc.atomic.Own) (hb : NoBroadcast proc.atomic)
    {l : TimedNetwork.Label (PID N) (ι × Turn κ) (Turn κ) (MessageShell N M) Int}
    (hst : TimedNetwork.Step ((emulating g proc).program transmit) w l w')
    : (TimedNetwork.lts (proc.atomic.program (nativeEmit g)) 0).Path (fun _ _ _ => True) (native w)
        (native w') := by
  cases hst with
  | @input p i s out h =>
    simp only [NekoProcess.program, Option.map_eq_some_iff, Prod.exists, Prod.mk.injEq] at h
    obtain ⟨_, outs, hinput, rfl, hout⟩ := h
    have hpath := native_input hlast hown hb hinput hout.symm
    rw [← Multiset.map_coe, ← Multiset.map_add] at hpath
    exact hpath
  | @receive p shell turn s out rest hnet h =>
    simp only [NekoProcess.program, Option.map_eq_some_iff, Prod.exists, Prod.mk.injEq] at h
    obtain ⟨_, outs, hdeliver, rfl, hout⟩ := h
    have hpath := native_deliver hlast hown hb hdeliver hout.symm hnet
    rw [← Multiset.map_coe, ← Multiset.map_add] at hpath
    exact hpath
  | wait now hnow hall =>
    have hwait : (TimedNetwork.lts (proc.atomic.program (nativeEmit g)) 0).step (native w) .wait
        { native w with now } := by
      apply TimedNetwork.Step.wait (w := native w) now hnow
      intro x hx
      obtain ⟨y, hy, rfl⟩ := Multiset.mem_map.mp hx
      exact hall y hy
    exact .single _ hwait trivial

/--
A simulation on a clique whose processes emulate a topology is a run of the protocols above on a network
with this topology, at the same times.
-/
theorem emulates_topology (hlast : proc.SendsLast) (hown : proc.atomic.Own) (hb : NoBroadcast proc.atomic)
    {s : NekoSimSystem N σ (MessageShell N M)}
    (h : (NekoSimSystem.lts (emulating g proc) Network.clique).Reach
      (fun s a _ => Meets (Regular Network.clique) (emulating g proc) Network.clique s a) s)
    : (TimedNetwork.lts (proc.atomic.program (NekoProcess.emit (Topology.graph g).neighborsForPID)) 0).Reachable
        (native s.timedWorld)
      ∧ (Idle s → (native s.timedWorld).net = 0) := by
  have htimed : (TimedNetwork.lts ((emulating g proc).program (NekoProcess.emit Network.clique)) 0).Reachable
      s.timedWorld := by
    apply NekoSimSystem.timedWorld_reach
    exact h.mono (fun _ _ _ hok => ⟨hok, fun _ _ => trivial⟩)
  rw [NekoProcess.emit_clique (fun _ => rfl)] at htimed
  constructor
  . apply LTS.Reach.refine native _ (fun _ _ _ _ hst _ => native_moves hlast hown hb hst) htimed
    rintro w rfl
    rfl
  . intro hidle
    have hempty := hidle.net_eq_zero h
    rw [← NekoSimSystem.untimed_timedWorld] at hempty
    have hnet : s.timedWorld.net = 0 := Multiset.map_eq_zero.mp hempty
    unfold native
    rw [hnet]
    rfl

end Native

section Path

/-!
Three processes in a row. The first one sends to all of them.
-/

attribute [local instance] PID.threeProcesses

def row : FinGraph Int := (MixedGraph.graphFrom [0, 1, 2] [.undi s(0, 1), .undi s(1, 2)]).simple

def announcing : ReactiveProcess 3 Nat Nat Unit Empty (AppMessage 3 Nat) where
  init := fun _ => 0
  input := fun me body count => some (.sending [.message (.multicast me Finset.univ body)] count)
  deliver := fun _ _ _ count => some (.done (count + 1))

theorem announcing_sendsLast : announcing.SendsLast where
  input := by
    rintro me i s r ⟨⟩
    exact ⟨_, _, rfl⟩
  deliver := by
    rintro me m k s r ⟨⟩
    exact ⟨_, [], rfl⟩

theorem announcing_input {me : PID 3} {body count count' : Nat}
    {sends : List (Event Empty (AppMessage 3 Nat))} {m : AppMessage 3 Nat}
    (h : announcing.atomic.input me body count = some (count', sends)) (hm : .message m ∈ sends)
    : m = .multicast me Finset.univ body := by
  cases h
  rw [List.mem_singleton] at hm
  cases hm
  rfl

theorem announcing_own : announcing.atomic.Own where
  input := by
    intro me i s s' sends h m hm
    rw [announcing_input h hm]
    rfl
  deliver := by
    rintro me m k s s' sends ⟨⟩ m' hm
    cases hm

theorem announcing_noBroadcast : NoBroadcast announcing.atomic where
  input := by
    intro me i s s' sends h m hm
    rw [announcing_input h hm]
    rfl
  deliver := by
    rintro me m k s s' sends ⟨⟩ m' hm
    cases hm

open DelaySimNetwork (Job Sent)
open Kernel (Stamped)

def shell : MessageShell 3 (AppMessage 3 Nat) :=
  ⟨0, Finset.univ ∩ PID.ofSet (row.neighbors 0), .multicast 0 Finset.univ 7⟩

def shellSent : Sent 3 (MessageShell 3 (AppMessage 3 Nat)) :=
  ⟨shell, 0, fun _ _ => some 5, fun _ => 0⟩

def shellTask : Stamped (Job 3 (MessageShell 3 (AppMessage 3 Nat))) := shellSent.stamped 0 (⟨1, shell⟩, 5)

def turn : Turn Unit := ⟨4, fun _ => ()⟩

def drawn : Nat → Draw 3 (MessageShell 3 (AppMessage 3 Nat)) :=
  fun _ => ⟨fun _ _ => some 5, fun _ => 0⟩

-- The first process receives its message at once and the second one later.
def announced : NekoSimSystem 3 Nat (MessageShell 3 (AppMessage 3 Nat)) where
  processes := fun p => if p = 2 then 0 else 1
  network :=
    ⟨{ sched := ⟨[], 5⟩, running := some shellTask, scheduled := [shellTask], executed := [(5, shellTask)] },
      [shellSent]⟩

theorem announced_reach
    : (NekoSimSystem.lts (emulating row announcing) Network.clique).Reach
        (fun s a _ => Meets (Regular Network.clique) (emulating row announcing) Network.clique s a)
        announced := by
  let proc := emulating row announcing
  let ok : NekoSimSystem 3 Nat (MessageShell 3 (AppMessage 3 Nat)) →
      NekoSimSystem.Action 3 (Nat × Turn Unit) (Turn Unit) (MessageShell 3 (AppMessage 3 Nat)) →
      NekoSimSystem 3 Nat (MessageShell 3 (AppMessage 3 Nat)) → Prop := fun s a _ =>
    Meets (Regular Network.clique) proc Network.clique s a
  have h0 : (NekoSimSystem.lts proc Network.clique).Reach ok (NekoSimSystem.initial proc) := .init rfl
  have h1 : (NekoSimSystem.lts proc Network.clique).Reach ok
      ⟨Function.update (fun _ => 0) 0 1,
        ⟨{ sched := ⟨[shellTask], 0⟩, scheduled := [shellTask] }, [shellSent]⟩⟩ :=
    h0.next (.input 0 (7, turn) drawn) rfl (by
      rintro _ _ ⟨⟩
      exact ⟨.of_send ⟨⟨by decide, by decide⟩, by decide⟩ (fun _ _ => rfl), trivial⟩)
  have h2 : (NekoSimSystem.lts proc Network.clique).Reach ok
      ⟨Function.update (fun _ => 0) 0 1,
        ⟨{ sched := ⟨[], 5⟩, batch := [shellTask], scheduled := [shellTask] }, [shellSent]⟩⟩ :=
    h1.next (.kernel .executeNext) rfl (.of_room (by decide))
  have h3 : (NekoSimSystem.lts proc Network.clique).Reach ok
      ⟨Function.update (Function.update (fun _ => 0) 0 1) 1 1, announced.network⟩ :=
    h2.next (.deliver turn drawn) rfl (.of_deliver ⟨1, shell⟩ rfl rfl rfl rfl trivial)
  have hprocesses : announced.processes = Function.update (Function.update (fun _ => 0) 0 1) 1 1 := by
    decide
  rw [← hprocesses] at h3
  exact h3

theorem emulates_topology_row
    : (NekoSimSystem.lts (emulating row announcing) Network.clique).Reach
        (fun s a _ => Meets (Regular Network.clique) (emulating row announcing) Network.clique s a)
        announced
      ∧ (TimedNetwork.lts (announcing.atomic.program (nativeEmit row)) 0).Reachable (native announced.timedWorld)
      ∧ (native announced.timedWorld).net = 0 :=
  have hnative := emulates_topology announcing_sendsLast announcing_own announcing_noBroadcast announced_reach
  ⟨announced_reach, hnative.1, hnative.2 ⟨rfl, rfl⟩⟩

end Path

section Reset

/-!
A process that resets its counter after it has sent a message to itself. The message has already been
counted then, on a network it still arrives.
-/

def resetting : ReactiveProcess 1 Nat Unit Unit Empty (AppMessage 1 Unit) where
  init := fun _ => 1
  input := fun me _ count => some (.send count (.message (.multicast me Finset.univ ())) (fun _ => .done 0))
  deliver := fun _ _ _ count => some (.done (count + 1))

def single : FinGraph Int := (MixedGraph.graphFrom [0] []).simple

theorem emit_single (p : PID 1)
    : (nativeEmit single [(.message (.multicast p Finset.univ ()) : Event Empty (AppMessage 1 Unit))]).length
      = 1 := by
  revert p
  decide

-- Without a message in flight, there has been one since the counter was reset.
theorem resetting_counts {w : TimedNetwork.World (PID 1) Nat (AppMessage 1 Unit) Int}
    (h : (TimedNetwork.lts (resetting.atomic.program (nativeEmit single)) 0).Reachable w)
    : w.net = 0 → ∀ p, w.node p ≠ 0 := by
  apply LTS.Reach.invariant (I := fun w => w.net = 0 → ∀ p, w.node p ≠ 0) _ _ h
  . rintro w rfl _ p
    exact Nat.one_ne_zero
  . intro w l w' _ hI hst _ hempty q
    cases hst with
    | @input p i s out hinput =>
      simp only [NekoProcess.program, ReactiveProcess.atomic, resetting, Reaction.atomic, Option.map_some,
        Option.some.injEq, Prod.mk.injEq] at hinput
      have hlength := emit_single p
      rw [hinput.2, List.length_map] at hlength
      have hcard : (Multiset.ofList out + w.net).card = 0 := congrArg Multiset.card hempty
      rw [Multiset.card_add, Multiset.coe_card] at hcard
      omega
    | @receive p m k s out rest hnet hreceive =>
      simp only [NekoProcess.program, ReactiveProcess.atomic, resetting, Reaction.atomic, Option.map_some,
        Option.some.injEq, Prod.mk.injEq] at hreceive
      obtain rfl : p = q := Subsingleton.elim _ _
      dsimp only
      rw [Function.update_self, ← hreceive.1]
      exact Nat.succ_ne_zero _
    | wait now hnow hall => exact hI hempty q

/--
Emulated, the counter is reset with no message in flight.
-/
theorem not_emulates_topology
    : ∃ s : NekoSimSystem 1 Nat (MessageShell 1 (AppMessage 1 Unit)),
        (NekoSimSystem.lts (emulating single resetting) Network.clique).Reach
            (fun s a _ => Meets (Regular Network.clique) (emulating single resetting) Network.clique s a) s
          ∧ ¬ (TimedNetwork.lts (resetting.atomic.program (nativeEmit single)) 0).Reachable
            (native s.timedWorld) := by
  have h0 : (NekoSimSystem.lts (emulating single resetting) Network.clique).Reach
      (fun s a _ => Meets (Regular Network.clique) (emulating single resetting) Network.clique s a)
      (NekoSimSystem.initial (emulating single resetting)) := .init rfl
  have h1 := h0.next (.input 0 ((), ⟨4, fun _ => ()⟩) (fun _ => ⟨fun _ _ => some 5, fun _ => 0⟩)) rfl (by
      rintro _ _ ⟨⟩
      exact ⟨.of_send ⟨⟨by decide, by decide⟩, by decide⟩ (fun _ _ => rfl), trivial⟩)
  refine ⟨_, h1, ?_⟩
  intro h
  exact resetting_counts h rfl 0 rfl

end Reset

end ArbitraryTopology
