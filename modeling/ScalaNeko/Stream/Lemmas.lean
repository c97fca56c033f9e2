import ScalaNeko.Lib.Lines
import ScalaNeko.Stream.Impl

/-!
What the target of a `PrefixOutputStream` gets. The bytes of a separator that has begun are kept back,
and they are not sent after all when it does not go on, or when the stream is flushed.
-/

open Lines (Split Matched)

namespace PrefixOutputStream

variable {pref lineSep : List UInt8} {s : PrefixOutputStream} {calls : List Call} {c : Call} {b : UInt8}

def written : List Call → List UInt8
  | [] => []
  | .write b :: calls => b :: written calls
  | .flush :: calls => written calls

theorem written_append (calls calls' : List Call) : written (calls ++ calls') = written calls ++ written calls' := by
  induction calls with
  | nil => rfl
  | cons c calls ih =>
    cases c with
    | write b => exact congrArg (b :: ·) ih
    | flush => exact ih

-- Lines, each with the prefix. An unfinished line has it from its first byte on.
def prefixed (pref : List UInt8) (lines : List (List UInt8)) (line sent : List UInt8) : List UInt8 :=
  lines.flatMap (pref ++ ·) ++ if line = [] then [] else pref ++ sent

theorem prefixed_nil {pref sent : List UInt8} {lines : List (List UInt8)}
    : prefixed pref lines [] sent = lines.flatMap (pref ++ ·) := by
  unfold prefixed
  rw [if_pos rfl, List.append_nil]

theorem prefixed_of_ne {pref line sent : List UInt8} {lines : List (List UInt8)} (hline : line ≠ [])
    : prefixed pref lines line sent = lines.flatMap (pref ++ ·) ++ (pref ++ sent) := by
  unfold prefixed
  rw [if_neg hline]

/--
What has been sent are the lines that have been written, but for a separator that has only begun.
-/
def Lossless (pref lineSep text out : List UInt8) : Prop :=
  ∃ lines sent held, Split lineSep text lines (sent ++ held) ∧ (held <+: lineSep ∧ held ≠ lineSep)
    ∧ out = prefixed pref lines (sent ++ held) sent

/--
The separator has been followed as far as it goes, and the prefix of the line has been sent.
-/
structure Good (pref lineSep text : List UInt8) (s : PrefixOutputStream) (lines : List (List UInt8))
    (line sent : List UInt8) : Prop where
  split : Split lineSep text lines line
  matched : Matched lineSep line s.cursor
  line_eq : line = sent ++ lineSep.take s.cursor
  out_eq : s.out = prefixed pref lines line sent
  pending : s.pending = true → s.cursor = 0 ∧ (line = [] ∨ pref = [])
  active : s.pending = false → line ≠ []

variable {text line sent : List UInt8} {lines : List (List UInt8)}

theorem take_ne_of_lt {c : Nat} (hlt : c < lineSep.length) : lineSep.take c ≠ lineSep := by
  intro hall
  have hlength := congrArg List.length hall
  rw [List.length_take] at hlength
  omega

theorem Good.lossless (h : Good pref lineSep text s lines line sent) : Lossless pref lineSep text s.out := by
  refine ⟨lines, sent, lineSep.take s.cursor, ?_, ⟨List.take_prefix _ _, take_ne_of_lt h.matched.lt⟩, ?_⟩
  . rw [← h.line_eq]
    exact h.split
  . rw [← h.line_eq]
    exact h.out_eq

theorem good_init (hsep : lineSep ≠ []) : Good pref lineSep [] {} [] [] [] where
  split := .nil hsep
  matched := .nil hsep
  line_eq := rfl
  out_eq := rfl
  pending := fun _ => ⟨rfl, .inl rfl⟩
  active := by
    intro h
    cases h

-- The state after the prefix has been printed.
def started (pref : List UInt8) (s : PrefixOutputStream) : PrefixOutputStream :=
  if s.pending then { s with pending := false }.print pref else s

theorem started_cursor : (s.started pref).cursor = s.cursor := by
  unfold started
  split
  . rfl
  . rfl

theorem started_pending : (s.started pref).pending = false := by
  unfold started
  split
  . rfl
  . next h => exact Bool.eq_false_iff.mpr h

theorem Good.sent_eq_nil (h : Good pref lineSep text s lines [] sent) : sent = [] :=
  (List.append_eq_nil_iff.mp h.line_eq.symm).1

theorem Good.started_out (h : Good pref lineSep text s lines line sent)
    : (s.started pref).out = lines.flatMap (pref ++ ·) ++ (pref ++ sent) := by
  unfold started
  split
  . next hpending =>
    show s.out ++ pref = _
    rcases Decidable.em (line = []) with rfl | hline
    . rw [h.out_eq, prefixed_nil, h.sent_eq_nil, List.append_nil]
    . have hpref := (h.pending hpending).2.resolve_left hline
      rw [h.out_eq, prefixed_of_ne hline, hpref, List.append_nil]
  . next hpending =>
    rw [h.out_eq, prefixed_of_ne (h.active (Bool.eq_false_iff.mpr hpending))]

theorem write_eq
    : s.write pref lineSep b
      = if lineSep[s.cursor]? = some b then
          if s.cursor + 1 = lineSep.length then
            { s.started pref with cursor := 0, pending := true }.print lineSep
          else
            { s.started pref with cursor := s.cursor + 1 }
        else
          (s.started pref).print [b] := by
  rw [← @started_cursor pref s]
  rfl

theorem snoc_ne_nil : line ++ [b] ≠ [] := List.append_ne_nil_of_right_ne_nil _ (List.cons_ne_nil _ _)

namespace Good

theorem write_complete (h : Good pref lineSep text s lines line sent) (hb : lineSep[s.cursor]? = some b)
    (hlast : s.cursor + 1 = lineSep.length)
    : Good pref lineSep (text ++ [b]) (s.write pref lineSep b) (lines ++ [line ++ [b]]) [] [] := by
  have hsep : lineSep ≠ [] := List.ne_nil_of_length_pos (by omega)
  rw [write_eq, if_pos hb, if_pos hlast]
  refine ⟨h.split.close hsep (h.matched.complete hb hlast), .nil hsep, rfl, ?_, fun _ => ⟨rfl, .inl rfl⟩, ?_⟩
  . have hall : lineSep.take s.cursor ++ [b] = lineSep := by
      rw [← Lines.take_succ hb, hlast, List.take_length]
    show (s.started pref).out ++ lineSep = _
    rw [prefixed_nil, List.flatMap_append, List.flatMap_singleton, h.started_out, h.line_eq, List.append_assoc,
      List.append_assoc, List.append_assoc, hall]
  . intro hactive
    cases hactive

theorem write_match (h : Good pref lineSep text s lines line sent) (hb : lineSep[s.cursor]? = some b)
    (hlast : s.cursor + 1 ≠ lineSep.length)
    : Good pref lineSep (text ++ [b]) (s.write pref lineSep b) lines (line ++ [b]) sent := by
  have hlt : s.cursor + 1 < lineSep.length := by
    have := h.matched.lt
    omega
  rw [write_eq, if_pos hb, if_neg hlast]
  refine ⟨h.split.grow (h.matched.not_suffix_of_lt hlt), h.matched.next hb hlt, ?_, ?_, ?_, fun _ => snoc_ne_nil⟩
  . rw [h.line_eq, List.append_assoc]
    show _ = sent ++ lineSep.take (s.cursor + 1)
    rw [Lines.take_succ hb]
  . rw [prefixed_of_ne snoc_ne_nil]
    exact h.started_out
  . intro hpending
    exact absurd hpending (ne_true_of_eq_false started_pending)

-- What has been matched stays matched only if it is made of the byte that comes.
theorem write_mismatch (h : Good pref lineSep text s lines line sent) (hb : lineSep[s.cursor]? ≠ some b)
    (hsame : ∀ a, a ∈ lineSep.take s.cursor → a = b)
    : Good pref lineSep (text ++ [b]) (s.write pref lineSep b) lines (line ++ [b]) (sent ++ [b]) := by
  rw [write_eq, if_neg hb]
  have hcursor : ((s.started pref).print [b]).cursor = s.cursor := started_cursor
  refine ⟨h.split.grow (h.matched.not_suffix_of_mismatch hb), ?_, ?_, ?_, ?_, fun _ => snoc_ne_nil⟩
  . rw [hcursor]
    exact h.matched.stay hb hsame
  . rw [hcursor, h.line_eq, List.append_assoc, List.append_assoc, Matched.snoc_comm_iff.mpr hsame]
    rfl
  . rw [prefixed_of_ne snoc_ne_nil]
    show (s.started pref).out ++ [b] = _
    rw [h.started_out, List.append_assoc, List.append_assoc]
  . intro hpending
    exact absurd hpending (ne_true_of_eq_false started_pending)

theorem flush (h : Good pref lineSep text s lines line sent)
    (hflush : s.pending = true ∨ (pref = [] ∧ s.cursor = 0))
    : Good pref lineSep text s.flush lines line sent := by
  have hcursor : s.cursor = 0 := by
    rcases hflush with hpending | ⟨-, hzero⟩
    . exact (h.pending hpending).1
    . exact hzero
  refine ⟨h.split, ?_, ?_, h.out_eq, ?_, ?_⟩
  . show Matched lineSep line 0
    rw [← hcursor]
    exact h.matched
  . rw [h.line_eq, hcursor]
    rfl
  . intro _
    rcases hflush with hpending | ⟨hpref, -⟩
    . exact ⟨rfl, (h.pending hpending).2⟩
    . exact ⟨rfl, .inr hpref⟩
  . intro hactive
    cases hactive

end Good

/--
A byte that does not go on with the separator is lost, or what has begun is, unless the two can be
exchanged. A flush in the middle of a line gives it a second prefix, and forgets what has begun.
-/
def Harmless (pref lineSep : List UInt8) (s : PrefixOutputStream) : Call → Prop
  | .write b => lineSep[s.cursor]? = some b ∨ ∀ a, a ∈ lineSep.take s.cursor → a = b
  | .flush => s.pending = true ∨ (pref = [] ∧ s.cursor = 0)

theorem Good.call (h : Good pref lineSep text s lines line sent) (hc : Harmless pref lineSep s c)
    : ∃ lines line sent, Good pref lineSep (text ++ written [c]) (s.call pref lineSep c) lines line sent := by
  cases c with
  | write b =>
    rcases Decidable.em (lineSep[s.cursor]? = some b) with hb | hb
    . rcases Decidable.em (s.cursor + 1 = lineSep.length) with hlast | hlast
      . exact ⟨_, _, _, h.write_complete hb hlast⟩
      . exact ⟨_, _, _, h.write_match hb hlast⟩
    . exact ⟨_, _, _, h.write_mismatch hb (hc.resolve_left hb)⟩
  | flush =>
    refine ⟨lines, line, sent, ?_⟩
    show Good pref lineSep (text ++ []) s.flush lines line sent
    rw [List.append_nil]
    exact h.flush hc

def HarmlessRun (pref lineSep : List UInt8) : PrefixOutputStream → List Call → Prop
  | _, [] => True
  | s, c :: calls => Harmless pref lineSep s c ∧ HarmlessRun pref lineSep (s.call pref lineSep c) calls

instance : Decidable (Harmless pref lineSep s c) :=
  match c with
  | .write _ => inferInstanceAs (Decidable (_ ∨ _))
  | .flush => inferInstanceAs (Decidable (_ ∨ _))

theorem Good.run (h : Good pref lineSep text s lines line sent) (hcalls : HarmlessRun pref lineSep s calls)
    : ∃ lines line sent,
        Good pref lineSep (text ++ written calls) (calls.foldl (PrefixOutputStream.call pref lineSep) s)
          lines line sent := by
  induction calls generalizing s text lines line sent with
  | nil =>
    refine ⟨lines, line, sent, ?_⟩
    show Good pref lineSep (text ++ []) s lines line sent
    rw [List.append_nil]
    exact h
  | cons c calls ih =>
    obtain ⟨_, _, _, hnext⟩ := h.call hcalls.1
    rw [← List.singleton_append, written_append, ← List.append_assoc]
    exact ih hnext hcalls.2

theorem HarmlessRun.of_append {later : List Call} (h : HarmlessRun pref lineSep s (calls ++ later))
    : HarmlessRun pref lineSep s calls := by
  induction calls generalizing s with
  | nil => trivial
  | cons c calls ih => exact ⟨h.1, ih h.2⟩

/--
As long as every call is harmless, the target has got the bytes that have been written, each line with
its prefix.
-/
theorem lossless_after {before : List Call} (hsep : lineSep ≠ []) (h : HarmlessRun pref lineSep {} calls)
    (hbefore : before <+: calls)
    : Lossless pref lineSep (written before) (after pref lineSep before).out := by
  obtain ⟨later, rfl⟩ := hbefore
  obtain ⟨lines, line, sent, hgood⟩ := (good_init hsep).run h.of_append
  exact hgood.lossless

-- A whole line, a flush after it, and a line of which the separator has begun.
theorem lossless_after_six : Lossless [62] [13, 10] [97, 13, 10, 98, 13] [62, 97, 13, 10, 62, 98] :=
  @lossless_after [62] [13, 10] [.write 97, .write 13, .write 10, .flush, .write 98, .write 13] _
    (List.cons_ne_nil _ _)
    ⟨.inr (List.forall_mem_nil _), .inl rfl, .inl rfl, .inl rfl, .inr (List.forall_mem_nil _), .inl rfl, trivial⟩
    List.prefix_rfl

-- What is missing in an unfinished line has to be the beginning of a separator.
theorem Lossless.missing (h : Lossless pref lineSep text (lines.flatMap (pref ++ ·) ++ (pref ++ sent)))
    (hsplit : Split lineSep text lines line) (hline : line ≠ [])
    : ∃ held, held <+: lineSep ∧ line = sent ++ held := by
  obtain ⟨lines', sent', held, hsplit', ⟨hheld, -⟩, hout⟩ := h
  obtain ⟨rfl, rfl⟩ := hsplit.unique hsplit'
  rw [prefixed_of_ne hline] at hout
  have hsent : sent = sent' := List.append_cancel_left (List.append_cancel_left hout)
  exact ⟨held, hheld, by rw [hsent]⟩

-- The first write that is not harmless loses bytes at once.
theorem Good.not_lossless_of_write (h : Good pref lineSep text s lines line sent)
    (hb : ¬ Harmless pref lineSep s (.write b))
    : ¬ Lossless pref lineSep (text ++ [b]) (s.write pref lineSep b).out := by
  intro hlossless
  obtain ⟨hnext, hsame⟩ := not_or.mp hb
  have hout : (s.write pref lineSep b).out = lines.flatMap (pref ++ ·) ++ (pref ++ (sent ++ [b])) := by
    rw [write_eq, if_neg hnext]
    show (s.started pref).out ++ [b] = _
    rw [h.started_out, List.append_assoc, List.append_assoc]
  rw [hout] at hlossless
  obtain ⟨held, hheld, hline⟩ :=
    hlossless.missing (h.split.grow (h.matched.not_suffix_of_mismatch hnext)) snoc_ne_nil
  rw [h.line_eq, List.append_assoc, List.append_assoc] at hline
  have hswap : lineSep.take s.cursor ++ [b] = b :: held := List.append_cancel_left hline
  have hlength := congrArg List.length hswap
  rw [List.length_append, List.length_take, Nat.min_eq_left (Nat.le_of_lt h.matched.lt)] at hlength
  rw [List.prefix_iff_eq_take.mp hheld, ← Nat.succ.inj hlength] at hswap
  exact hsame (Matched.snoc_comm_iff.mp hswap)

-- After a flush in the middle of a line, the prefix that comes with the next byte is one too many.
theorem Good.not_lossless_of_flush (h : Good pref lineSep text s lines line sent) (hpending : s.pending = false)
    (hcursor : s.cursor = 0) (hpref : pref ≠ []) (hb : lineSep[0]? ≠ some b)
    : ¬ Lossless pref lineSep (text ++ [b]) (s.flush.write pref lineSep b).out := by
  intro hlossless
  have hout : (s.flush.write pref lineSep b).out = lines.flatMap (pref ++ ·) ++ (pref ++ (sent ++ pref ++ [b])) := by
    rw [write_eq]
    show (if lineSep[0]? = some b then _ else (s.flush.started pref).print [b]).out = _
    rw [if_neg hb]
    show s.out ++ pref ++ [b] = _
    rw [h.out_eq, prefixed_of_ne (h.active hpending), List.append_assoc, List.append_assoc, List.append_assoc,
      List.append_assoc]
  rw [← hcursor] at hb
  rw [hout] at hlossless
  obtain ⟨held, -, hline⟩ := hlossless.missing (h.split.grow (h.matched.not_suffix_of_mismatch hb)) snoc_ne_nil
  rw [h.line_eq, hcursor, List.take_zero, List.append_nil] at hline
  have hlength := congrArg List.length hline
  have hpos := List.length_pos_of_ne_nil hpref
  simp only [List.length_append] at hlength
  omega

-- A carriage return before another byte, where a line ends with a carriage return and a line feed.
theorem not_lossless_of_return
    : ¬ Lossless [] [13, 10] (written [.write 13, .write 97]) (after [] [13, 10] [.write 13, .write 97]).out :=
  ((good_init (by decide)).write_match rfl (by decide)).not_lossless_of_write (by decide)

end PrefixOutputStream
