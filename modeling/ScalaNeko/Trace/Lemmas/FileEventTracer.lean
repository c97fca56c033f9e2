import ScalaNeko.Trace.Impl.FileEventTracer

/-!
What can be read from a trace file if the number of the variables is known. A variable that is equal
to its last value is only marked, and two values can be equal with different strings: after an object
has been changed in place, its last value is the same object.
-/

open Framing Trace

namespace FileEventTracer

section Numbers

variable {c : Char} {u : UInt16} {n : Nat}

theorem toNat_of_isDigit (h : c.isDigit = true) : 48 ≤ c.toNat ∧ c.toNat ≤ 57 :=
  Char.isDigit_iff_toNat.mp h

theorem toNat_ofNat_of_isDigit (h : c.isDigit = true) : (UInt16.ofNat c.toNat).toNat = c.toNat := by
  have hdigit := toNat_of_isDigit h
  rw [UInt16.toNat_ofNat']
  omega

theorem toNat_of_mem_natString (h : u ∈ natString n) : 48 ≤ u.toNat ∧ u.toNat ≤ 57 := by
  obtain ⟨c, hc, rfl⟩ := List.mem_map.mp h
  have hdigit := Nat.isDigit_of_mem_toDigits (by decide) (by decide) hc
  rw [toNat_ofNat_of_isDigit hdigit]
  exact toNat_of_isDigit hdigit

theorem natString_ne_nil : natString n ≠ [] := by
  intro hnil
  exact Nat.toDigits_ne_nil (List.map_eq_nil_iff.mp hnil)

def digits (s : Str) : List Char := s.map fun u => Char.ofNat u.toNat

theorem digits_natString : digits (natString n) = Nat.toDigits 10 n := by
  unfold digits natString units
  rw [List.map_map]
  calc (Nat.toDigits 10 n).map _ = (Nat.toDigits 10 n).map id := by
        apply List.map_congr_left
        intro c hc
        have hdigit := Nat.isDigit_of_mem_toDigits (by decide) (by decide) hc
        show Char.ofNat (UInt16.ofNat c.toNat).toNat = c
        rw [toNat_ofNat_of_isDigit hdigit, Char.ofNat_toNat]
    _ = Nat.toDigits 10 n := List.map_id _

def decimal : Numeral UInt16 where
  write := natString
  read := fun s => Nat.ofDigitChars 10 (digits s) 0
  stop := 44
  read_write := by
    intro n
    rw [digits_natString, Nat.ofDigitChars_ten_toDigits]
  stop_not_mem := by
    intro n hmem
    exact absurd (toNat_of_mem_natString hmem) (by decide)

theorem withLength_eq {s : Str} : withLength s = frame decimal s := by
  unfold withLength
  rw [List.append_assoc]
  rfl

end Numbers

section Reader

def unchanged : UInt16 := 110

def readField (text : Str) : Option (Option Str × Str) :=
  match text with
  | [] => none
  | u :: rest =>
    if u = unchanged then
      some (none, rest)
    else
      (unframe decimal text).map fun (s, rest) => (some s, rest)

def readLine (text : Str) : Option (Str × Str) :=
  match text with
  | [] => none
  | u :: rest => if u = newline then unframe decimal rest else none

-- The text of the event, and the strings of the variables that are not marked as unchanged.
abbrev Fields := Str × List (Option Str)

def readEvent (k : Nat) (text : Str) : Option Fields := do
  let (event, text) ← unframe decimal text
  let (fields, _) ← times readField k text
  return (event, fields)

-- A variable that is unchanged has the string that it had last.
def resolve : List Str → List Fields → List (Str × List Str)
  | _, [] => []
  | last, (event, fields) :: events =>
    let current := List.zipWith Option.getD fields last
    (event, current) :: resolve current events

def afterLine (text : Str) : Str := (text.dropWhile (· ≠ newline)).drop 1

-- There are four lines of which the last one ends where the first event begins.
def afterHeader (text : Str) : Str := (afterLine (afterLine (afterLine text))).dropWhile (· ≠ newline)

/--
A reader that knows the number of variables, and nothing else.
-/
def readTrace (k : Nat) (text : Str) : Option (List (Str × List Str)) := do
  let text := afterHeader text
  let lines ← many readLine text.length text
  let events ← lines.mapM (readEvent k)
  return resolve (List.replicate k []) events

end Reader

section Format

def writeField : Option Str → Str
  | none => [unchanged]
  | some s => withLength s

def writeLine (s : Str) : Str := newline :: withLength s

def writeEvent (e : Fields) : Str := withLength e.1 ++ e.2.flatMap writeField

theorem reads_field : Reads readField writeField := by
  intro field rest
  cases field with
  | none => rfl
  | some s =>
    show readField (withLength s ++ rest) = _
    obtain ⟨u, number, hnumber⟩ := List.exists_cons_of_ne_nil (@natString_ne_nil s.length)
    have hu : u ≠ unchanged := by
      rintro rfl
      have hmem : unchanged ∈ natString s.length := hnumber ▸ List.mem_cons_self
      exact absurd (toNat_of_mem_natString hmem) (by decide)
    have htext : withLength s ++ rest = u :: (number ++ units [','] ++ s ++ rest) := by
      unfold withLength
      rw [hnumber]
      rfl
    rw [htext, readField, if_neg hu, ← htext, withLength_eq, unframe_frame]
    rfl

theorem reads_line : Reads readLine writeLine := by
  intro s rest
  show readLine (newline :: (withLength s ++ rest)) = _
  rw [readLine, if_pos rfl, withLength_eq, unframe_frame]

theorem writeLine_ne_nil (s : Str) : writeLine s ≠ [] := List.cons_ne_nil _ _

theorem readEvent_writeEvent (e : Fields) : readEvent e.2.length (writeEvent e) = some e := by
  have hfields : times readField e.2.length (e.2.flatMap writeField ++ []) = some (e.2, []) :=
    reads_field.times e.2
  rw [List.append_nil] at hfields
  unfold readEvent writeEvent
  rw [withLength_eq, unframe_frame, Option.bind_eq_bind, Option.bind_some]
  dsimp only
  rw [hfields]
  rfl

theorem mapM_readEvent {k : Nat} {events : List Fields} (h : ∀ e, e ∈ events → e.2.length = k)
    : (events.map writeEvent).mapM (readEvent k) = some events := by
  induction events with
  | nil => rfl
  | cons e events ih =>
    have he : readEvent k (writeEvent e) = some e := h e List.mem_cons_self ▸ readEvent_writeEvent e
    rw [List.map_cons, List.mapM_cons, he, ih fun e' he' => h e' (List.mem_cons_of_mem _ he')]
    rfl

end Format

section Header

variable {statics : Statics} {s rest : Str}

theorem not_mem_flatMap {α : Type} {xs : List α} {f : α → Str} (h : ∀ x, newline ∉ f x)
    : newline ∉ xs.flatMap f := by
  intro hmem
  obtain ⟨x, -, hx⟩ := List.mem_flatMap.mp hmem
  exact h x hx

theorem not_mem_natString (n : Nat) : newline ∉ natString n := by
  intro hmem
  exact absurd (toNat_of_mem_natString hmem) (by decide)

theorem not_mem_intString (n : Int) : newline ∉ intString n := by
  cases n with
  | ofNat n => exact not_mem_natString n
  | negSucc n => exact List.not_mem_append (by decide) (not_mem_natString _)

theorem not_mem_pair (ids : Int × Int) : newline ∉ Statics.pair ids := by
  unfold Statics.pair
  refine List.not_mem_append (List.not_mem_append ?_ (not_mem_intString _)) (by decide)
  exact List.not_mem_append (List.not_mem_append (by decide) (not_mem_intString _)) (by decide)

theorem not_mem_edge (e : PrintedEdge) : newline ∉ Statics.edge e := by
  have hedge : ∀ (p q : Int) (separator : Str), newline ∉ separator →
      newline ∉ intString p ++ separator ++ intString q ++ units ['#'] := by
    intro p q separator h
    refine List.not_mem_append (List.not_mem_append ?_ (not_mem_intString _)) (by decide)
    exact List.not_mem_append (not_mem_intString _) h
  cases e with
  | unDiEdge p q => exact hedge p q _ (by decide)
  | diEdge source target => exact hedge source target _ (by decide)

theorem not_mem_edgesString (edges : List PrintedEdge) : newline ∉ Statics.edgesString edges := by
  cases edges with
  | nil => decide
  | cons e edges => exact not_mem_flatMap not_mem_edge

theorem not_mem_dummies (n : Nat) : newline ∉ Statics.dummies n := by
  intro hmem
  obtain ⟨dummy, hdummy, hnewline⟩ := List.mem_flatten.mp hmem
  rw [List.eq_of_mem_replicate hdummy] at hnewline
  exact absurd hnewline (by decide)

theorem afterLine_append (h : newline ∉ s) : afterLine (s ++ newline :: rest) = rest := by
  unfold afterLine
  rw [dropWhile_ne h, dropWhile_ne_self]
  rfl

theorem afterHeader_staticBuffer (lines : List Str)
    : afterHeader (statics.staticBuffer ++ lines.flatMap writeLine) = lines.flatMap writeLine := by
  have hprotocols : newline ∉ statics.protocolImpls.flatMap fun number => Statics.dummies number ++ units ['/'] :=
    not_mem_flatMap fun number => List.not_mem_append (not_mem_dummies number) (by decide)
  have hvariables : newline ∉ statics.variableIDs.flatMap fun ids => ids.flatMap Statics.pair ++ units ['/'] :=
    not_mem_flatMap fun _ => List.not_mem_append (not_mem_flatMap not_mem_pair) (by decide)
  unfold Statics.staticBuffer
  simp only [List.append_assoc, List.cons_append, List.nil_append]
  unfold afterHeader
  rw [afterLine_append (not_mem_natString _), afterLine_append hprotocols, afterLine_append hvariables,
    dropWhile_ne (not_mem_edgesString _)]
  cases lines with
  | nil => rfl
  | cons line lines => exact dropWhile_ne_self

end Header

namespace Call

variable {Heap : Type}

def kind : Call Heap → EventKind
  | send _ => .sSend
  | deliver _ => .sDelv
  | SEND _ => .lSend
  | DELIVER _ => .lDelv

def details : Call Heap → Details Heap
  | send d => d
  | deliver d => d
  | SEND d => d
  | DELIVER d => d

def eventString (c : Call Heap) : Str := stringFor c.kind c.details

def heap (c : Call Heap) : Heap := c.details.heap

end Call

section Run

variable {Heap V : Type} {objects : Objects Heap V} {statics : Statics} {getters : List (Heap → V)} {pid : Int}
  {tracer : FileEventTracer Heap V} {calls : List (Call Heap)} {c : Call Heap} {old : Option Heap}

theorem call_eq : tracer.call objects statics pid c = trace objects statics c.kind tracer pid c.details := by
  cases c with
  | send d => rfl
  | deliver d => rfl
  | SEND d => rfl
  | DELIVER d => rfl

-- The mirrors after an event on the heap `old`.
def mirrorsAt (getters : List (Heap → V)) (old : Option Heap) : List (MirrorAndAny Heap V) :=
  getters.map fun getter => { mirror := getter, any := old.map getter }

-- What is written of the variables at an event on `heap`.
def fieldsAt (objects : Objects Heap V) (getters : List (Heap → V)) (old : Option Heap) (heap : Heap)
    : List (Option Str) :=
  getters.map fun getter =>
    if (old.map getter).any fun value => objects.equals heap value (getter heap) then
      none
    else
      some (objects.toString heap (getter heap))

def eventsAt (objects : Objects Heap V) (getters : List (Heap → V)) : Option Heap → List (Call Heap) → List Fields
  | _, [] => []
  | old, c :: calls =>
    (c.eventString, fieldsAt objects getters old c.heap) :: eventsAt objects getters (some c.heap) calls

-- What the file has, or what it begins with.
def content (statics : Statics) (tracer : FileEventTracer Heap V) : Str := tracer.file.getD statics.staticBuffer

theorem initFile_eq : tracer.initFile statics = { tracer with file := some (content statics tracer) } := by
  obtain ⟨file, mirrorLists⟩ := tracer
  cases file with
  | none => rfl
  | some file => rfl

theorem update_mirrorsAt {heap : Heap} : (mirrorsAt getters old).map (update heap) = mirrorsAt getters (some heap) := by
  unfold mirrorsAt
  rw [List.map_map]
  rfl

theorem reflect_mirrorsAt {heap : Heap}
    : (mirrorsAt getters old).flatMap (reflectOne objects heap)
      = (fieldsAt objects getters old heap).flatMap writeField := by
  unfold mirrorsAt fieldsAt
  rw [List.flatMap_map, List.flatMap_map]
  apply List.flatMap_congr
  intro getter _
  unfold reflectOne
  dsimp only
  split
  . rfl
  . rfl

-- One event: a line in the file, and the values of the variables kept for the next event.
theorem call_of_mirrorsAt (h : tracer.mirrorLists pid = mirrorsAt getters old)
    : tracer.call objects statics pid c
      = { file := some (content statics tracer
            ++ writeLine (writeEvent (c.eventString, fieldsAt objects getters old c.heap))),
          mirrorLists := Function.update tracer.mirrorLists pid (mirrorsAt getters (some c.heap)) } := by
  rw [call_eq, trace, initFile_eq]
  unfold reflect
  dsimp only
  rw [h, update_mirrorsAt, reflect_mirrorsAt]
  rfl

theorem run_file (h : tracer.mirrorLists pid = mirrorsAt getters old)
    : (calls.foldl (call objects statics pid) tracer).file
      = if calls = [] then
          tracer.file
        else
          some (content statics tracer
            ++ ((eventsAt objects getters old calls).map writeEvent).flatMap writeLine) := by
  induction calls generalizing tracer old with
  | nil => rfl
  | cons c calls ih =>
    have hcall := @call_of_mirrorsAt _ _ objects statics getters pid tracer c old h
    have hmirrors : (tracer.call objects statics pid c).mirrorLists pid = mirrorsAt getters (some c.heap) := by
      rw [hcall]
      exact Function.update_self ..
    rw [List.foldl_cons, ih hmirrors, if_neg (List.cons_ne_nil _ _), hcall]
    split
    . next hnil =>
      subst hnil
      show _ = some (_ ++ (writeLine _ ++ []))
      rw [List.append_nil]
    . show some (_ ++ writeLine _ ++ _) = some (_ ++ (writeLine _ ++ _))
      rw [List.append_assoc]
      rfl

theorem length_fieldsAt {heap : Heap} : (fieldsAt objects getters old heap).length = getters.length :=
  List.length_map _

theorem length_of_mem_eventsAt {e : Fields} (h : e ∈ eventsAt objects getters old calls)
    : e.2.length = getters.length := by
  induction calls generalizing old with
  | nil => cases h
  | cons c calls ih =>
    rcases List.mem_cons.mp h with rfl | h
    . exact length_fieldsAt
    . exact ih h

theorem readTrace_staticBuffer
    : readTrace getters.length
        (statics.staticBuffer ++ ((eventsAt objects getters old calls).map writeEvent).flatMap writeLine)
      = some (resolve (List.replicate getters.length []) (eventsAt objects getters old calls)) := by
  unfold readTrace
  dsimp only
  rw [afterHeader_staticBuffer, reads_line.many writeLine_ne_nil _ (length_le_flatMap writeLine_ne_nil _),
    Option.bind_eq_bind, Option.bind_some, mapM_readEvent fun e => length_of_mem_eventsAt]
  rfl

-- The strings of the variables on a heap.
def stringsAt (objects : Objects Heap V) (getters : List (Heap → V)) (heap : Heap) : List Str :=
  getters.map fun getter => objects.toString heap (getter heap)

/--
A variable that is equal to what it was at the last event has the same string as it had then.
-/
def Kept (objects : Objects Heap V) (getters : List (Heap → V)) (old heap : Heap) : Prop :=
  ∀ getter, getter ∈ getters → objects.equals heap (getter old) (getter heap) = true →
    objects.toString old (getter old) = objects.toString heap (getter heap)

theorem resolve_first {heap : Heap}
    : List.zipWith Option.getD (fieldsAt objects getters none heap) (List.replicate getters.length [])
      = stringsAt objects getters heap := by
  rw [← List.map_const', fieldsAt, List.zipWith_map, List.zipWith_self]
  rfl

theorem resolve_next {old heap : Heap}
    : List.zipWith Option.getD (fieldsAt objects getters (some old) heap) (stringsAt objects getters old)
        = stringsAt objects getters heap
      ↔ Kept objects getters old heap := by
  rw [fieldsAt, stringsAt, List.zipWith_map, List.zipWith_self]
  unfold stringsAt Kept
  rw [List.map_inj_left]
  refine forall₂_congr fun getter _ => ?_
  show Option.getD (if objects.equals heap (getter old) (getter heap) = true then none else some _) _ = _ ↔ _
  split
  . next hequal => exact ⟨fun h _ => h, fun h => h hequal⟩
  . next hequal => exact ⟨fun _ h => absurd h hequal, fun _ => rfl⟩

theorem resolve_iff {old : Heap}
    : resolve (stringsAt objects getters old) (eventsAt objects getters (some old) calls)
        = calls.map (fun c => (c.eventString, stringsAt objects getters c.heap))
      ↔ List.IsChain (Kept objects getters) (old :: calls.map Call.heap) := by
  induction calls generalizing old with
  | nil => simp [eventsAt, resolve]
  | cons c calls ih =>
    rw [List.map_cons, List.map_cons, List.isChain_cons_cons, ← ih, ← resolve_next, eventsAt, resolve]
    constructor
    . intro h
      obtain ⟨hhead, htail⟩ := List.cons.inj h
      have hcurrent := (Prod.mk.inj hhead).2
      rw [hcurrent] at htail
      exact ⟨hcurrent, htail⟩
    . rintro ⟨hcurrent, htail⟩
      rw [hcurrent, htail]

/--
The reader gets back the events, and the string of each variable at each event, if and only if a variable
never has another string with a value that is equal to the last one.
-/
theorem readTrace_iff (objects : Objects Heap V) (statics : Statics) (getters : Int → List (Heap → V)) (pid : Int)
    (calls : List (Call Heap))
    : readTrace (getters pid).length ((after objects statics getters pid calls).file.getD [])
        = some (calls.map fun c => (c.eventString, stringsAt objects (getters pid) c.heap))
      ↔ List.IsChain (Kept objects (getters pid)) (calls.map Call.heap) := by
  unfold after
  rw [@run_file _ _ objects statics (getters pid) pid _ calls none rfl]
  cases calls with
  | nil =>
    rw [if_pos rfl, List.map_nil]
    exact ⟨fun _ => .nil, fun _ => rfl⟩
  | cons c calls =>
    rw [if_neg (List.cons_ne_nil _ _)]
    show readTrace _ (statics.staticBuffer ++ _) = _ ↔ _
    rw [readTrace_staticBuffer, eventsAt, resolve, resolve_first, List.map_cons, List.map_cons, ← resolve_iff]
    rw [Option.some_inj, List.cons_inj_right]

end Run

-- The heap has one buffer, which is its string, and the variable always refers to it.
def buffer : Objects Str Unit where
  equals := fun _ _ _ => true
  toString := fun heap _ => heap

def appended (s : Str) : Call Str := .send { sTime := [], byName := [], whoStr := [], sEvent := [], heap := s }

/--
No reader can tell whether a buffer has been appended to between two events.
-/
theorem no_reader_of_buffer
    : ¬ ∃ read : Nat → Str → Option (List (Str × List Str)), ∀ calls : List (Call Str),
        read 1 ((after buffer ⟨[], [], []⟩ (fun _ => [fun _ => ()]) 1 calls).file.getD [])
          = some (calls.map fun c => (c.eventString, stringsAt buffer [fun _ => ()] c.heap)) := by
  rintro ⟨read, hread⟩
  have hsame : (after buffer ⟨[], [], []⟩ (fun _ => [fun _ => ()]) 1 [appended [97], appended [97, 98]]).file
      = (after buffer ⟨[], [], []⟩ (fun _ => [fun _ => ()]) 1 [appended [97], appended [97]]).file := by
    decide
  have hchanged := hread [appended [97], appended [97, 98]]
  rw [hsame, hread [appended [97], appended [97]]] at hchanged
  exact absurd hchanged (by decide)

end FileEventTracer
