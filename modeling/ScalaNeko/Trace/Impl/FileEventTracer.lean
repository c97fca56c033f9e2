import Mathlib.Logic.Function.Basic
import ScalaNeko.Lib.Framing

/-!
The trace file that `FileEventTracer` writes. The protocols have their tracing names, and `traceName`
is empty, so that all events are traced.
-/

namespace Trace

-- A string is made of UTF-16 code units.
abbrev Str := List UInt16

def units (chars : List Char) : Str := chars.map fun c => UInt16.ofNat c.toNat

def newline : UInt16 := 10

-- What `toString` gives for a number.
def natString (n : Nat) : Str := units (Nat.toDigits 10 n)

def intString : Int → Str
  | .ofNat n => natString n
  | .negSucc n => units ['-'] ++ natString (n + 1)

-- The text as it is written after its length.
def withLength (s : Str) : Str := natString s.length ++ units [','] ++ s

/--
What the methods of the values give. They are called on a heap, where the objects are found.
-/
structure Objects (Heap V : Type) where
  equals : Heap → V → V → Bool
  toString : Heap → V → Str

structure MirrorAndAny (Heap V : Type) where
  mirror : Heap → V
  any : Option V

inductive EventKind where
  | sSend
  | lSend
  | sDelv
  | lDelv

def EventKind.name : EventKind → Str
  | sSend => units ['s', 'n', 'd']
  | lSend => units ['S', 'N', 'D']
  | sDelv => units ['d', 'l', 'v']
  | lDelv => units ['D', 'L', 'V']

-- The arguments as the formatter gets them from `toString`, `formatTime` and the table of names.
structure Details (Heap : Type) where
  sTime : Str
  byName : Str
  whoStr : Str
  sEvent : Str
  heap : Heap

def stringFor {Heap : Type} (kind : EventKind) (d : Details Heap) : Str :=
  d.byName ++ units [' '] ++ d.whoStr ++ units [' '] ++ kind.name ++ units [' '] ++ d.sTime
    ++ units [' '] ++ d.sEvent

-- An edge of the topology, which may be a directed one.
inductive PrintedEdge where
  | unDiEdge (p q : Int)
  | diEdge (source target : Int)

-- What `initFile` prints of the system: the number of protocols of each process, the identifiers of the
-- protocol and of the name of each traced variable, and the edges of the topology.
structure Statics where
  protocolImpls : List Nat
  variableIDs : List (List (Int × Int))
  edges : List PrintedEdge

namespace Statics

def pair (ids : Int × Int) : Str :=
  units ['('] ++ intString ids.1 ++ units [','] ++ intString ids.2 ++ units [')']

def edge : PrintedEdge → Str
  | .unDiEdge p q => intString p ++ units ['~'] ++ intString q ++ units ['#']
  | .diEdge source target => intString source ++ units ['~', '>'] ++ intString target ++ units ['#']

-- With no edge, `mkString` prints the end all the same.
def edgesString : List PrintedEdge → Str
  | [] => units ['#']
  | edges => edges.flatMap edge

def dummies (number : Nat) : Str := (List.replicate number (units ['D', 'U', 'M', 'M', 'Y'])).flatten

def staticBuffer (statics : Statics) : Str :=
  natString statics.protocolImpls.length ++ [newline]
    ++ statics.protocolImpls.flatMap (fun number => dummies number ++ units ['/']) ++ [newline]
    ++ statics.variableIDs.flatMap (fun ids => ids.flatMap pair ++ units ['/']) ++ [newline]
    ++ edgesString statics.edges

end Statics

end Trace

open Trace

structure FileEventTracer (Heap V : Type) where
  file : Option Str
  mirrorLists : Int → List (MirrorAndAny Heap V)

namespace FileEventTracer

variable {Heap V : Type} (objects : Objects Heap V) (statics : Statics)

-- `setTrace` adds the getters of a variable, with no value yet.
def start (getters : Int → List (Heap → V)) : FileEventTracer Heap V where
  file := none
  mirrorLists := fun pid => (getters pid).map fun getter => { mirror := getter, any := none }

def reflectOne (heap : Heap) (t : MirrorAndAny Heap V) : Str :=
  let value := t.mirror heap
  if t.any.any fun old => objects.equals heap old value then
    units ['n']
  else
    withLength (objects.toString heap value)

def update (heap : Heap) (t : MirrorAndAny Heap V) : MirrorAndAny Heap V :=
  { t with any := some (t.mirror heap) }

def reflect (tracer : FileEventTracer Heap V) (pid : Int) (heap : Heap) : FileEventTracer Heap V × Str :=
  let mirrors := tracer.mirrorLists pid
  ({ tracer with mirrorLists := Function.update tracer.mirrorLists pid (mirrors.map (update heap)) },
    mirrors.flatMap (reflectOne objects heap))

def initFile (tracer : FileEventTracer Heap V) : FileEventTracer Heap V :=
  match tracer.file with
  | none => { tracer with file := some statics.staticBuffer }
  | some _ => tracer

def printFile (tracer : FileEventTracer Heap V) (s : Str) : FileEventTracer Heap V :=
  let tracer := tracer.initFile statics
  { tracer with file := tracer.file.map (· ++ ([newline] ++ natString s.length ++ units [','] ++ s)) }

def trace (kind : EventKind) (tracer : FileEventTracer Heap V) (by_ : Int) (d : Details Heap)
    : FileEventTracer Heap V :=
  let tracer := tracer.initFile statics
  let (tracer, mirrored) := tracer.reflect objects by_ d.heap
  tracer.printFile statics (withLength (stringFor kind d) ++ mirrored)

def send : FileEventTracer Heap V → Int → Details Heap → FileEventTracer Heap V :=
  trace objects statics .sSend

def deliver : FileEventTracer Heap V → Int → Details Heap → FileEventTracer Heap V :=
  trace objects statics .sDelv

def SEND : FileEventTracer Heap V → Int → Details Heap → FileEventTracer Heap V :=
  trace objects statics .lSend

def DELIVER : FileEventTracer Heap V → Int → Details Heap → FileEventTracer Heap V :=
  trace objects statics .lDelv

inductive Call (Heap : Type) where
  | send (d : Details Heap)
  | deliver (d : Details Heap)
  | SEND (d : Details Heap)
  | DELIVER (d : Details Heap)

def call (pid : Int) (tracer : FileEventTracer Heap V) : Call Heap → FileEventTracer Heap V
  | .send d => tracer.send objects statics pid d
  | .deliver d => tracer.deliver objects statics pid d
  | .SEND d => tracer.SEND objects statics pid d
  | .DELIVER d => tracer.DELIVER objects statics pid d

def after (getters : Int → List (Heap → V)) (pid : Int) (calls : List (Call Heap)) : FileEventTracer Heap V :=
  calls.foldl (call objects statics pid) (start getters)

end FileEventTracer
