import Mathlib.Data.Finset.Defs
import ScalaNeko.Lib.AsyncNetwork

/-!
Message passing over one log: what is sent is appended to it, and each process receives the messages
that are addressed to it in the order of the log.
-/

namespace LogNetwork

open AsyncNetwork (Action)

variable {P σ ι κ μ : Type}

structure Post (P μ : Type) where
  msg : μ
  dests : Finset P

structure Program (P σ ι κ μ : Type) where
  init : P → σ
  input : P → ι → σ → Option (σ × List (Post P μ))
  receive : P → μ → κ → σ → Option (σ × List (Post P μ))

/--
`read p` is how many of the messages that are addressed to `p` it has received.
-/
structure World (P σ μ : Type) where
  node : P → σ
  log : List (Post P μ)
  read : P → Nat

section Inbox

variable [DecidableEq P] {log : List (Post P μ)} {p : P}

-- What is addressed to `p`, with the places in the log.
def inbox (log : List (Post P μ)) (p : P) : List (μ × Nat) :=
  (log.zipIdx.filter (fun x => p ∈ x.1.dests)).map (fun x => (x.1.msg, x.2))

theorem mem_inbox {m : μ} {n : Nat}
    : (m, n) ∈ inbox log p ↔ ∃ post, log[n]? = some post ∧ post.msg = m ∧ p ∈ post.dests := by
  unfold inbox
  rw [List.mem_map]
  constructor
  . rintro ⟨⟨post, n⟩, hmem, heq⟩
    cases heq
    rw [List.mem_filter, List.mem_zipIdx_iff_getElem?, decide_eq_true_eq] at hmem
    exact ⟨post, hmem.1, rfl, hmem.2⟩
  . rintro ⟨post, hget, rfl, hp⟩
    refine ⟨(post, n), ?_, rfl⟩
    rw [List.mem_filter, List.mem_zipIdx_iff_getElem?, decide_eq_true_eq]
    exact ⟨hget, hp⟩

theorem inbox_sorted (log : List (Post P μ)) (p : P)
    : (inbox log p).Pairwise (fun x y => x.2 < y.2) := by
  have hsorted : log.zipIdx.Pairwise (fun x y => x.2 < y.2) := by
    rw [← List.pairwise_map (f := Prod.snd), List.zipIdx_map_snd]
    exact List.pairwise_lt_range'
  exact List.pairwise_map.mpr (hsorted.filter _)

end Inbox

namespace World

variable [DecidableEq P]

def post (w : World P σ μ) (p : P) (s : σ) (posts : List (Post P μ)) : World P σ μ where
  node := Function.update w.node p s
  log := w.log ++ posts
  read := w.read

def next (w : World P σ μ) (p : P) : World P σ μ :=
  { w with read := Function.update w.read p (w.read p + 1) }

-- What `p` has received.
def received (w : World P σ μ) (p : P) : List (μ × Nat) := (inbox w.log p).take (w.read p)

end World

variable [DecidableEq P]

inductive Step (prog : Program P σ ι κ μ) : World P σ μ → Action P ι κ μ → World P σ μ → Prop where
  | input {w : World P σ μ} {p : P} {i : ι} {s : σ} {posts : List (Post P μ)} :
      prog.input p i (w.node p) = some (s, posts) →
      Step prog w (.input p i) (w.post p s posts)
  | receive {w : World P σ μ} {p : P} {m : μ} {n : Nat} {k : κ} {s : σ} {posts : List (Post P μ)} :
      (inbox w.log p)[w.read p]? = some (m, n) →
      prog.receive p m k (w.node p) = some (s, posts) →
      Step prog w (.receive p m k) ((w.next p).post p s posts)

def initWorld (prog : Program P σ ι κ μ) : World P σ μ where
  node := prog.init
  log := []
  read := fun _ => 0

def lts (prog : Program P σ ι κ μ) : LTS (World P σ μ) (Action P ι κ μ) where
  init := fun w => w = initWorld prog
  step := Step prog

variable {w : World P σ μ} {p : P} {m : μ} {n n' : Nat}

theorem received_sorted (w : World P σ μ) (p : P) : (w.received p).Pairwise (fun x y => x.2 < y.2) :=
  (inbox_sorted w.log p).take

/--
Who has received a message has received what comes before it in the log and is addressed to it too.
-/
theorem mem_received_of_lt (h : (m, n) ∈ w.received p) {post : Post P μ}
    (hget : w.log[n']? = some post) (hp : p ∈ post.dests) (hlt : n' < n)
    : (post.msg, n') ∈ w.received p := by
  have hmem : (post.msg, n') ∈ inbox w.log p := mem_inbox.mpr ⟨post, hget, rfl, hp⟩
  have hsorted := inbox_sorted w.log p
  rw [← List.take_append_drop (w.read p) (inbox w.log p)] at hmem hsorted
  rcases List.mem_append.mp hmem with hmem | hmem
  . exact hmem
  . have hge := (List.pairwise_append.mp hsorted).2.2 _ h _ hmem
    exact absurd hlt (Nat.lt_asymm hge)

end LogNetwork
