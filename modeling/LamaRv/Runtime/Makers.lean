import LamaRv.Runtime.Construct
import LamaRv.Runtime.Transparency
import LamaRv.Tags

/-!
# Functions that make objects, and the store (`runtime.c`)

A program makes objects by functions of the runtime, each of which keeps the words with its arguments
among the extra roots while it allocates.  To the program such a function puts one more object, with all
its contents, into the store.

* `lmakeArray`, `lsInfix58`: the code of two functions more;
* `Maker`: the functions; `Maker.eval`: the objects that they make, or their messages;
* `Session`: a store, and what the program has told the collector;
* `Command`, `Session.perform`, `State.command`: programs that call them.
-/

namespace LamaRv.Gc

open WordBytes

/-! ### The code -/

/-- The loop of `LmakeArray`. -/
def fillWords (m : Mem) (p v : ℕ) : ℕ → Mem
  | 0 => m
  | n + 1 => fillWords (m.set p v) (p + 8) v n

/-- `LmakeArray`. -/
def lmakeArray (mmap : ℕ → Option ℕ) (frame length : ℕ) (s : State) :
    Option (Except String (State × ℕ)) :=
  if !unboxed length then some (.error "unboxed value expected in makeArray:1\n")
  else do
    let (s, flag) ← preGc frame s
    let n := unbox length
    let (s, r) ← allocArray mmap s (toSizeT n)
    let m := fillWords s.mem (r + 16) (box 0) (toSizeT n)
    return .ok (← postGc frame flag { s with mem := m }, r + 16)

/-- The vector `bsexp_args` of `Ls__Infix_58`. -/
def consVector (m : Mem) (vector args : ℕ) (t : ℤ) : Mem :=
  ((m.set vector (m args)).set (vector + 8) (m (args + 8))).set (vector + 16) (toSizeT t)

/-- `Ls__Infix_58`, with the frames of its own and of `Bsexp`, and the address of the vector
`bsexp_args`. -/
def lsInfix58 (mmap : ℕ → Option ℕ) (frame frame' vector args : ℕ) (s : State) :
    Option (Except String (State × ℕ)) := do
  let (s, flag) ← preGc frame s
  match runtimeLtagHash "cons" with
  | .error message => some (.error message)
  | .ok t =>
    let (s, res) ← bsexp mmap frame' vector (box 3) { s with mem := consVector s.mem vector args t }
    return .ok (← postGc frame flag s, res)

/-! ### Functions that make objects -/

/-- The functions of the runtime that make objects, with their numbers of fields.  Code and C strings are
not objects: what the program passes is given here. -/
inductive Maker
  | array (n : ℕ)
  | sexp (n : ℕ)
  | closure (code n : ℕ)
  | cons
  | makeArray
  | makeString
  | string (text : List ℕ)
  | append
  | substring
  | clone
  deriving DecidableEq, Repr

/-- Where a function, the one that it calls and the one called by that have their frames, and the local
variables of the first. -/
structure Frames where
  own : ℕ
  inner : ℕ
  innermost : ℕ
  locals : ℕ

/-- What a function does: it returns a content, or it writes local variables, keeps some words among the
extra roots and makes an object. -/
inductive Making
  | value (c : Content)
  | object (locals : List (ℕ × Content)) (roots : List ℕ) (o : Obj)

/-- An object with fields. -/
def Obj.ofFields (t : LamaType) (n first : ℕ) (field : ℕ → Option Content) : Obj :=
  ⟨t, n, first, field, fun _ => 0⟩

@[simp] theorem Obj.ofFields_kind {t : LamaType} {n first : ℕ} {field : ℕ → Option Content} :
    (ofFields t n first field).kind = t := rfl

@[simp] theorem Obj.ofFields_length {t : LamaType} {n first : ℕ} {field : ℕ → Option Content} :
    (ofFields t n first field).length = n := rfl

/-- A string. -/
def Obj.ofBytes (n : ℕ) (byte : ℕ → ℕ) : Obj := ⟨.string, n, 0, fun _ => none, byte⟩

/-- Some bytes and then others, of each of which only zeros are taken after a zero. -/
def appended (la : ℕ) (f g : ℕ → ℕ) (k : ℕ) : ℕ := if k < la then cut f k else cut g (k - la)

/-- The tag of list cells. -/
def consTag : Option ℤ := (runtimeLtagHash "cons").toOption.map (· / 2)

namespace Maker

/-- The variables with the arguments, from the address `a` on. -/
def args (a : ℕ) : Maker → List ℕ
  | .array n => wordAddrs a n
  | .sexp n => wordAddrs a (n + 1)
  | .closure _ n => wordAddrs (a + 8) n
  | .cons | .append => [a, a + 8]
  | .makeArray | .makeString | .clone => [a]
  | .substring => [a, a + 8, a + 16]
  | .string _ => []

/-- What the functions make of the contents of their arguments: nothing is said where the program must
not call them. -/
def eval (obj : ℕ → Obj) (F : Frames) (a : ℕ) : Maker → List Content → Option (Except String Making)
  | .array n, cs => some (.ok (.object [] (wordAddrs a n) (.ofFields .array n 0 fun k => cs[k]?)))
  | .sexp n, cs =>
    match cs[n]? with
    | some (.int t) =>
      some (.ok (.object [] (wordAddrs a n) (.ofFields .sexp n (toSizeT t) fun k => cs[k]?)))
    | _ => none
  | .closure code n, cs =>
    some (.ok (.object [] (wordAddrs (a + 8) n) (.ofFields .closure (n + 1) code fun k => cs[k - 1]?)))
  | .cons, [c, d] => consTag.map fun t =>
    .ok (.object [(F.locals, c), (F.locals + 8, d), (F.locals + 16, .int t)] (wordAddrs F.locals 2)
      (.ofFields .sexp 2 (toSizeT t) fun k => [c, d, .int t][k]?))
  | .makeArray, [.ref _] => some (.error "unboxed value expected in makeArray:1\n")
  | .makeArray, [.int n] =>
    if 0 ≤ n then some (.ok (.object [] [] (.ofFields .array n.toNat 0 fun _ => some (.int 0))))
    else none
  | .makeString, [.ref _] => some (.error "unboxed value expected in makeString\n")
  | .makeString, [.int n] => if 0 ≤ n then some (.ok (.object [] [] (.new .string n.toNat))) else none
  | .string text, [] => some (.ok (.object [] [a] (.ofBytes text.length fun k => text.getD k 0)))
  | .append, [.ref i, d] =>
    if (obj i).kind ≠ .string then some (.error "string value expected in ++:1\n")
    else match d with
    | .int _ => none
    | .ref j =>
      if (obj j).kind ≠ .string then some (.error "string value expected in ++:2\n")
      else some (.ok (.object [] [a, a + 8] (.ofBytes ((obj i).length + (obj j).length)
        (appended (obj i).length (obj i).byte (obj j).byte))))
  | .substring, [.ref i, d, e] =>
    if (obj i).kind ≠ .string then some (.error "string value expected in substring:1\n")
    else match d, e with
    | .ref _, _ => some (.error "unboxed value expected in substring:2\n")
    | .int _, .ref _ => some (.error "unboxed value expected in substring:3\n")
    | .int p, .int l =>
      if 0 ≤ p + l ∧ p + l ≤ (obj i).length then
        if 0 ≤ p ∧ 0 ≤ l then
          some (.ok (.object [] [a] (.ofBytes l.toNat (cut fun k => (obj i).byte (p.toNat + k)))))
        else none
      else some (.error (substringError p l (obj i).length))
  | .clone, [.int n] => some (.ok (.value (.int n)))
  | .clone, [.ref i] =>
    if (obj i).kind = .string then
      some (.ok (.object [(F.locals, .ref i)] [a, F.locals]
        (.ofBytes (obj i).text.length (obj i).byte)))
    else some (.ok (.object [] [a] (obj i)))
  | _, _ => none

/-- The functions themselves. -/
def call (mmap : ℕ → Option ℕ) (F : Frames) (a : ℕ) (s : State) :
    Maker → Option (Except String (State × ℕ))
  | .array n => (barray mmap F.own a (box n) s).map .ok
  | .sexp n => (bsexp mmap F.own a (box (n + 1)) s).map .ok
  | .closure _ n => (bclosure mmap F.own a (box n) s).map .ok
  | .cons => lsInfix58 mmap F.own F.inner F.locals a s
  | .makeArray => lmakeArray mmap F.own (s.mem a) s
  | .makeString => lmakeString mmap F.own (s.mem a) s
  | .string _ => (bstring mmap F.own F.inner a s).map .ok
  | .append => liInfix4343 mmap F.own a s
  | .substring => lsubstring mmap F.own a s
  | .clone => lclone mmap F.own F.inner F.innermost a F.locals s

end Maker

/-! ### Programs -/

/-- A store, the top and the bottom of the stack, and the extra roots. -/
structure Session extends Store where
  top : ℕ
  bottom : ℕ
  extra : List ℕ

/-- What a program does: the operations on a store, and a call of a function that makes an object, for a
variable. -/
inductive Command
  | op (o : Op)
  | make (x : ℕ) (f : Maker) (F : Frames) (a : ℕ)

namespace Session

/-- The words that are scanned in a function with some frame, while it has some more extra roots. -/
def live (A : Session) (frame : ℕ) (roots : List ℕ) : List ℕ :=
  wordsBetween ((if A.top = 0 then frame else A.top) + 8) A.bottom ++ (A.extra ++ roots) ++ A.data

/-- The store while such a function is running. -/
def during (A : Session) (frame : ℕ) (roots : List ℕ) : Store :=
  { A.toStore with scanned := A.live frame roots }

/-- Local variables are written. -/
def write (A : Session) (locals : List (ℕ × Content)) : Session :=
  { A with toStore := locals.foldl (fun B l => (B.assign l.1 l.2).1) A.toStore }

/-- One more object. -/
def make (A : Session) (frame : ℕ) (roots : List ℕ) (o : Obj) : Session :=
  { A with toStore := { (A.during frame roots).grow o with scanned := A.scanned } }

/-- An operation is performed; it may change what is scanned. -/
def after (A : Session) (B : Store) : Op → Session
  | .scan top bottom extra => ⟨B, top, bottom, extra⟩
  | _ => { A with toStore := B }

/-- A variable gets a content. -/
def assign (A : Session) (x : ℕ) (c : Content) : Session × Option ℤ :=
  ({ A with toStore := (A.toStore.assign x c).1 }, c.answer)

/-- The commands. -/
def perform : Interaction.Machine Command String (Option ℤ) Session
  | .op o, A => (Store.perform o A.toStore).map (Except.map fun r => (A.after r.1 o, r.2))
  | .make x f F a, A => do
    let cs ← (f.args a).mapM A.var
    let r ← f.eval A.obj F a cs
    match r with
    | .error message => some (.error message)
    | .ok (.value c) => some (.ok (A.assign x c))
    | .ok (.object locals roots o) =>
      if Sized o.kind o.length then
        some (.ok (((A.write locals).make F.own roots o).assign x (.ref A.count)))
      else none

end Session

/-- The commands on memory; `kernel` chooses the place of a new heap. -/
def State.command (kernel : State → ℕ → Option ℕ) : Interaction.Machine Command String (Option ℤ) State
  | .op o, s => State.perform kernel o s
  | .make x f F a, s => (f.call (kernel s) F a s).map (Except.map fun r => r.1.assign x r.2)

end LamaRv.Gc
