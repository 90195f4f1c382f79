import LamaRv.Lib.Interaction
import LamaRv.Runtime.Access
import LamaRv.Runtime.HeapRuns

/-!
# What the runtime is for (`runtime.c`, `gc.c`)

To a program the runtime is a store of objects that never move and never go away.  An object is known by
its number; the words of memory outside of the heap are variables.

* `Content`, `Obj`, `Store`: what a variable stands for, the objects, the store;
* `Obj.elem`, `Obj.put`, `Primitive.eval`: what the functions of the runtime are about;
* `Op`, `Store.perform`: the operations of a program on the store;
* `Primitive.call`, `State.perform`: the same operations on memory, with the functions of the runtime.
-/

namespace LamaRv.Gc

/-! ### Objects -/

/-- What a word of the program stands for: an integer of the language or an object. -/
inductive Content
  | int (n : ℤ)
  | ref (i : ℕ)
  deriving DecidableEq, Repr

/-- An object: its kind and length, the first word of an s-expression or a closure, the fields that have
been written, and the bytes of a string.  The fields are numbered as `Belem` does, so that those of a
closure begin with one. -/
structure Obj where
  kind : LamaType
  length : ℕ
  first : ℕ
  field : ℕ → Option Content
  byte : ℕ → ℕ

namespace Obj

/-- A new object. -/
def new (t : LamaType) (n : ℕ) : Obj := ⟨t, n, 0, fun _ => none, fun _ => 0⟩

/-- The bytes before the first zero. -/
def text (o : Obj) : List ℕ := Value.text ((List.range o.length).map o.byte)

/-- Whether the object has a field of some number. -/
def IsField (o : Obj) (k : ℕ) : Prop := k < o.length ∧ o.kind ≠ .string ∧ (o.kind = .closure → k ≠ 0)

instance decidableIsField (o : Obj) (k : ℕ) : Decidable (o.IsField k) :=
  inferInstanceAs (Decidable (k < o.length ∧ o.kind ≠ .string ∧ (o.kind = .closure → k ≠ 0)))

/-- Whether the object has a first word of its own. -/
def HasFirst (o : Obj) : Prop := o.kind = .sexp ∨ o.kind = .closure ∧ 0 < o.length

instance decidableHasFirst (o : Obj) : Decidable o.HasFirst :=
  inferInstanceAs (Decidable (o.kind = .sexp ∨ o.kind = .closure ∧ 0 < o.length))

/-- An element: a field, or a byte of a string. -/
def elem (o : Obj) (k : ℤ) : Option Content :=
  if 0 ≤ k ∧ k < o.length ∧ o.kind = .string then some (.int (o.byte k.toNat))
  else if 0 ≤ k ∧ o.IsField k.toNat then o.field k.toNat
  else none

/-- An element is written. -/
def put (o : Obj) (k : ℤ) (c : Content) : Option Obj :=
  if 0 ≤ k ∧ k < o.length ∧ o.kind = .string then
    match c with
    | .int n => some { o with byte := Function.update o.byte k.toNat (n % 256).toNat }
    | .ref _ => none
  else if 0 ≤ k ∧ o.IsField k.toNat then
    some { o with field := Function.update o.field k.toNat (some c) }
  else none

end Obj

/-! ### Functions that look at objects -/

/-- The functions of the runtime that look at objects. -/
inductive Primitive
  | kindOf
  | compareTags
  | length
  | elem
  | tag
  | arrayPatt
  | stringPatt
  | tagPatt (t : LamaType)
  | boxedPatt
  | unboxedPatt
  | same
  deriving DecidableEq, Repr

/-- The tag of a kind of objects, taken for an integer. -/
def LamaType.number (t : LamaType) : ℤ := t.tag / 2

/-- A condition as an integer of the language. -/
def Content.truth (b : Bool) : Content := .int b.toNat

/-- What a function returns: nothing is said where the program must not call it. -/
def Primitive.eval (obj : ℕ → Obj) : Primitive → List Content → Option (Except String Content)
  | .kindOf, [.int _] => some (.ok (.int 4))
  | .kindOf, [.ref i] => some (.ok (.int (obj i).kind.number))
  | .compareTags, [.int _, _] => some (.error "boxed value expected in compareTags, 0\n")
  | .compareTags, [.ref _, .int _] => some (.error "boxed value expected in compareTags, 1\n")
  | .compareTags, [.ref i, .ref j] =>
    if (obj i).kind = .sexp ∧ (obj j).kind = .sexp then
      some (.ok (.int (((obj i).first - (obj j).first : ℤ).bmod (2 ^ 63))))
    else some (.error ("not a sexpr in compareTags: " ++ toString (obj i).kind.tag ++ ", " ++
      toString (obj j).kind.tag ++ "\n"))
  | .length, [.int _] => some (.error "boxed value expected in .length\n")
  | .length, [.ref i] => some (.ok (.int (obj i).length))
  | .elem, [.int _, _] => some (.error "boxed value expected in .elem:1\n")
  | .elem, [.ref _, .ref _] => some (.error "unboxed value expected in .elem:2\n")
  | .elem, [.ref i, .int k] => ((obj i).elem k).map .ok
  | .tag, [.int _, _, _] => some (.ok (.truth false))
  | .tag, [.ref i, .int t, .int n] =>
    some (.ok (.truth ((obj i).kind = .sexp ∧ (obj i).first = toSizeT t ∧ (obj i).length = n)))
  | .arrayPatt, [.int _, _] => some (.ok (.truth false))
  | .arrayPatt, [.ref i, .int n] => some (.ok (.truth ((obj i).kind = .array ∧ (obj i).length = n)))
  | .stringPatt, [.int _, .int _] => some (.ok (.truth false))
  | .stringPatt, [c, .ref j] =>
    if (obj j).kind = .string then
      match c with
      | .int _ => some (.ok (.truth false))
      | .ref i => some (.ok (.truth ((obj i).kind = .string ∧ (obj i).text = (obj j).text)))
    else some (.error "string value expected in .string_patt:2\n")
  | .tagPatt _, [.int _] => some (.ok (.truth false))
  | .tagPatt t, [.ref i] => some (.ok (.truth ((obj i).kind = t)))
  | .boxedPatt, [.int _] => some (.ok (.truth false))
  | .boxedPatt, [.ref _] => some (.ok (.truth true))
  | .unboxedPatt, [.int _] => some (.ok (.truth true))
  | .unboxedPatt, [.ref _] => some (.ok (.truth false))
  | .same, [c, d] => some (.ok (.truth (c = d)))
  | _, _ => none

/-- The functions themselves. -/
def Primitive.call (m : Mem) : Primitive → List ℕ → Option (Except String ℕ)
  | .kindOf, [p] => some (.ok (lkindOf m p))
  | .compareTags, [p, q] => some (lcompareTags m p q)
  | .length, [p] => some (llength m p)
  | .elem, [p, i] => some (belem m p i)
  | .tag, [d, t, n] => some (.ok (btag m d t n))
  | .arrayPatt, [d, n] => some (.ok (barrayPatt m d n))
  | .stringPatt, [x, y] => bstringPatt m x y
  | .tagPatt t, [x] => some (.ok (Gc.tagPatt t m x))
  | .boxedPatt, [x] => some (.ok (bboxedPatt x))
  | .unboxedPatt, [x] => some (.ok (bunboxedPatt x))
  | .same, [p, q] => some (.ok (lsInfix6161 p q))
  | _, _ => none

/-! ### Operations of a program -/

/-- What a program does with the store, in terms of its variables: assignments, calls of the functions
that look, of `Bsta` and of those that allocate; the first word of an object is written, as the
constructors do; other words are scanned. -/
inductive Op
  | int (x : ℕ) (n : ℤ)
  | move (x y : ℕ)
  | call (x : ℕ) (f : Primitive) (ys : List ℕ)
  | sta (x y z v : ℕ)
  | alloc (x : ℕ) (t : LamaType) (n : ℕ)
  | first (y w : ℕ)
  | scan (top bottom : ℕ) (extra : List ℕ)

/-- The objects, the variables that have a content, and the variables that are scanned, those of the data
area among them. -/
structure Store where
  count : ℕ
  obj : ℕ → Obj
  var : ℕ → Option Content
  scanned : List ℕ
  data : List ℕ

/-- What a program sees of a content. -/
def Content.answer : Content → Option ℤ
  | .int n => some n
  | .ref _ => none

/-- What a program sees of a word. -/
def answer (w : ℕ) : Option ℤ := if unboxed w then some (unbox w) else none

/-- The integers that fit into a word. -/
def Content.Fits (n : ℤ) : Prop := -2 ^ 62 ≤ n ∧ n < 2 ^ 62

instance Content.decidableFits (n : ℤ) : Decidable (Content.Fits n) :=
  inferInstanceAs (Decidable (-2 ^ 62 ≤ n ∧ n < 2 ^ 62))

/-- The length in the header and the size fit into a word. -/
instance decidableSized (t : LamaType) (n : ℕ) : Decidable (Sized t n) :=
  decidable_of_iff (8 * n < 2 ^ 64 ∧ t.bytes n < 2 ^ 64) ⟨fun h => ⟨h.1, h.2⟩, fun h => ⟨h.1, h.2⟩⟩

namespace Store

/-- A variable gets a content. -/
def assign (A : Store) (x : ℕ) (c : Content) : Store × Option ℤ :=
  ({ A with var := Function.update A.var x (some c) }, c.answer)

/-- An object is changed. -/
def setObj (A : Store) (i : ℕ) (o : Obj) : Store := { A with obj := Function.update A.obj i o }

/-- A new object.  A variable that is not scanned has no content afterwards. -/
def grow (A : Store) (o : Obj) : Store :=
  { A.setObj A.count o with
    count := A.count + 1
    var := fun a => if a ∈ A.scanned then A.var a else none }

/-- The operations. -/
def perform : Interaction.Machine Op String (Option ℤ) Store
  | .int x n, A => if Content.Fits n then some (.ok (A.assign x (.int n))) else none
  | .move x y, A => (A.var y).map fun c => .ok (A.assign x c)
  | .call x f ys, A => do
    let cs ← ys.mapM A.var
    let r ← f.eval A.obj cs
    return r.map (A.assign x)
  | .sta x y z v, A => do
    match A.var y, A.var z, A.var v with
    | some (.int _), some (.int _), some _ => some (.error "boxed value expected in .sta:3\n")
    | some (.ref i), some (.int k), some c =>
      ((A.obj i).put k c).map fun o => .ok ((A.setObj i o).assign x c)
    | _, _, _ => none
  | .alloc x t n, A =>
    if Sized t n then some (.ok ((A.grow (.new t n)).assign x (.ref A.count))) else none
  | .first y w, A =>
    match A.var y with
    | some (.ref i) =>
      if (A.obj i).HasFirst ∧ w < 2 ^ 64 then
        some (.ok (A.setObj i { A.obj i with first := w }, none))
      else none
    | _ => none
  | .scan top bottom extra, A =>
    some (.ok ({ A with scanned := wordsBetween (top + 8) bottom ++ extra ++ A.data }, none))

end Store

namespace State

/-- A word outside of the heap is written. -/
def assign (s : State) (x w : ℕ) : State × Option ℤ := ({ s with mem := s.mem.set x w }, answer w)

/-- The operations on memory; `kernel` chooses the place of a new heap. -/
def perform (kernel : State → ℕ → Option ℕ) : Interaction.Machine Op String (Option ℤ) State
  | .int x n, s => some (.ok (s.assign x (box n)))
  | .move x y, s => some (.ok (s.assign x (s.mem y)))
  | .call x f ys, s => (f.call s.mem (ys.map s.mem)).map (Except.map (s.assign x))
  | .sta x y z v, s =>
    some ((bsta s.mem (s.mem y) (s.mem z) (s.mem v)).map fun r => { s with mem := r.1 }.assign x r.2)
  | .alloc x t n, s =>
    (allocOf t (kernel s) s n).map fun r => .ok (r.1.assign x (r.2 + 16))
  | .first y w, s => some (.ok ({ s with mem := s.mem.set (s.mem y) w }, none))
  | .scan top bottom extra, s =>
    some (.ok ({ s with gcStackTop := top, gcStackBottom := bottom, extraRoots := extra }, none))

end State

end LamaRv.Gc
