import LamaRv.Compiler.SymbStack

/-!
# The heap at run time (`runtime_common.h`, `gc.h`, `gc.c`)

The heap is a chunk of memory that holds objects one after the other.  An object is a header word
with a tag and a length, a word for the collector, and its contents.  Pointers in the program point
to the contents.  An even word is taken for a pointer, an odd one is an integer.

* `Mem`, `MemoryChunk`, `State`: memory, the heap and where the roots are;
* the macros of the two header files, and the functions on headers, sizes and iterators;
* `forObjects`, `forPtrFields`: the two loops that the collector is made of.
-/

namespace LamaRv

/-- Memory by words: what is at an address.  Every access is aligned to words. -/
abbrev Mem := ℕ → ℕ

namespace Mem

/-- Write a word. -/
def set (m : Mem) (a v : ℕ) : Mem := Function.update m a v

@[simp] theorem set_self (m : Mem) (a v : ℕ) : m.set a v a = v := by simp [set]

@[simp] theorem set_of_ne (m : Mem) {a b : ℕ} (v : ℕ) (h : b ≠ a) : m.set a v b = m b := by
  simp [set, h]

/-- `memset` with zero, some whole words. -/
def clear (m : Mem) (p words : ℕ) : Mem := fun a => if p ≤ a ∧ a < p + 8 * words then 0 else m a

/-- The word with the `k` low bytes of `new` and the others of `old`. -/
def mergeBytes (k old new : ℕ) : ℕ := new % 256 ^ k + old / 256 ^ k * 256 ^ k

/-- `memmove`, and `memcpy` where the areas do not overlap.  Of the last word only the bytes that
belong to the area are copied. -/
def move (m : Mem) (dst src bytes : ℕ) : Mem := fun a =>
  if dst ≤ a ∧ a < dst + bytes then
    if a + 8 ≤ dst + bytes then m (src + (a - dst))
    else mergeBytes (dst + bytes - a) (m a) (m (src + (a - dst)))
  else m a

end Mem

namespace Gc

/-- A `memory_chunk`. -/
structure MemoryChunk where
  begin : ℕ
  endPtr : ℕ
  current : ℕ
  size : ℕ

/-- What the collector works on: memory, the heap, and where the roots are. -/
structure State where
  mem : Mem
  heap : MemoryChunk
  gcStackTop : ℕ
  gcStackBottom : ℕ
  extraRoots : List ℕ
  startCustomData : ℕ
  stopCustomData : ℕ

/-! ### Macros -/

/-- `x & ~y`. -/
def clearBits (x y : ℕ) : ℕ := x ^^^ (x &&& y)

/-- `LEN`. -/
def len (x : ℕ) : ℕ := clearBits x 7 >>> 3

/-- `TAG`. -/
def tag (x : ℕ) : ℕ := x &&& 7

/-- `UNBOXED`. -/
def unboxed (x : ℕ) : Bool := x &&& 1 != 0

def dataHeaderSz : ℕ := 16

def memberSize : ℕ := 8

/-- `TO_DATA`: from the contents to the header. -/
def toData (x : ℕ) : ℕ := x - dataHeaderSz

/-- `BYTES_TO_WORDS`. -/
def bytesToWords (bytes : ℕ) : ℕ := toSizeT (bytes - 1) / 8 + 1

/-- `WORDS_TO_BYTES`. -/
def wordsToBytes (words : ℕ) : ℕ := toSizeT (words * 8)

def getMarkBit (x : ℕ) : Bool := x &&& 1 != 0

def setMarkBit (x : ℕ) : ℕ := x ||| 1

def isEnqueuedBit (x : ℕ) : Bool := x &&& 2 != 0

def makeEnqueuedBit (x : ℕ) : ℕ := x ||| 2

def makeDequeuedBit (x : ℕ) : ℕ := clearBits x 2

def resetMarkBit (x : ℕ) : ℕ := clearBits x 1

/-- `GET_FORWARD_ADDRESS`. -/
def forwardAddressBits (x : ℕ) : ℕ := clearBits x 3

/-- `SET_FORWARD_ADDRESS`. -/
def setForwardAddressBits (x addr : ℕ) : ℕ := x &&& 3 ||| addr

def extraRoomHeapCoefficient : ℕ := 2

def minimumHeapCapacity : ℕ := 64

/-! ### Headers and sizes -/

/-- `lama_type`. -/
inductive LamaType
  | array
  | closure
  | string
  | sexp
  deriving DecidableEq, Repr

namespace LamaType

/-- `ARRAY_TAG`, `CLOSURE_TAG`, `STRING_TAG` and `SEXP_TAG`. -/
def tag : LamaType → ℕ
  | array => 3
  | closure => 7
  | string => 1
  | sexp => 5

end LamaType

/-- `get_type_header_ptr`; the program is killed at any other tag. -/
def getTypeHeaderPtr (m : Mem) (ptr : ℕ) : Option LamaType :=
  match tag (m ptr) with
  | 3 => some .array
  | 1 => some .string
  | 7 => some .closure
  | 5 => some .sexp
  | _ => none

def getTypeRowPtr (m : Mem) (ptr : ℕ) : Option LamaType := getTypeHeaderPtr m (toData ptr)

def getHeaderSize : LamaType → ℕ
  | _ => dataHeaderSz

def arraySize (sz : ℕ) : ℕ := toSizeT (getHeaderSize .array + memberSize * sz)

/-- With the zero at the end of the string. -/
def stringSize (len : ℕ) : ℕ := toSizeT (getHeaderSize .string + len + 1)

def closureSize (sz : ℕ) : ℕ := toSizeT (getHeaderSize .closure + memberSize * sz)

def sexpSize (members : ℕ) : ℕ := toSizeT (getHeaderSize .sexp + memberSize * (members + 1))

/-- The size of an object of some type. -/
def LamaType.size : LamaType → ℕ → ℕ
  | array => arraySize
  | closure => closureSize
  | string => stringSize
  | sexp => sexpSize

def objSizeHeaderPtr (m : Mem) (ptr : ℕ) : Option ℕ := do
  return (← getTypeHeaderPtr m ptr).size (len (m ptr))

def getObjectContentPtr (m : Mem) (header : ℕ) : Option ℕ := do
  return header + getHeaderSize (← getTypeHeaderPtr m header)

def getObjHeaderPtr (m : Mem) (ptr : ℕ) : Option ℕ := do
  return ptr - getHeaderSize (← getTypeRowPtr m ptr)

def getEndOfObj (m : Mem) (header : ℕ) : Option ℕ := do
  return header + (← objSizeHeaderPtr m header)

/-! ### The word of the collector -/

/-- Where the forward address of an object is. -/
def forwardWord (obj : ℕ) : ℕ := toData obj + 8

def getForwardAddress (m : Mem) (obj : ℕ) : ℕ := forwardAddressBits (m (forwardWord obj))

def setForwardAddress (m : Mem) (obj addr : ℕ) : Mem :=
  m.set (forwardWord obj) (setForwardAddressBits (m (forwardWord obj)) addr)

def isMarked (m : Mem) (obj : ℕ) : Bool := getMarkBit (m (forwardWord obj))

def markObject (m : Mem) (obj : ℕ) : Mem := m.set (forwardWord obj) (setMarkBit (m (forwardWord obj)))

def unmarkObject (m : Mem) (obj : ℕ) : Mem :=
  m.set (forwardWord obj) (resetMarkBit (m (forwardWord obj)))

def isEnqueued (m : Mem) (obj : ℕ) : Bool := isEnqueuedBit (m (forwardWord obj))

def makeEnqueued (m : Mem) (obj : ℕ) : Mem :=
  m.set (forwardWord obj) (makeEnqueuedBit (m (forwardWord obj)))

def makeDequeued (m : Mem) (obj : ℕ) : Mem :=
  m.set (forwardWord obj) (makeDequeuedBit (m (forwardWord obj)))

/-! ### Iterators -/

/-- `heap_next_obj_iterator`; an iterator is the address of a header. -/
def heapNextObjIterator (m : Mem) (it : ℕ) : Option ℕ := do
  return it + 8 * bytesToWords (← objSizeHeaderPtr m it)

/-- An `obj_field_iterator`. -/
structure ObjFieldIterator where
  type : LamaType
  objPtr : ℕ
  curField : ℕ

def fieldBeginIterator (m : Mem) (obj : ℕ) : Option ObjFieldIterator := do
  let type ← getTypeHeaderPtr m obj
  let content ← getObjectContentPtr m obj
  match type with
  | .string => return ⟨type, obj, ← getEndOfObj m obj⟩
  | .closure | .sexp => return ⟨type, obj, content + memberSize⟩
  | .array => return ⟨type, obj, content⟩

def fieldIsDoneIterator (m : Mem) (it : ObjFieldIterator) : Option Bool := do
  return decide (it.curField ≥ (← getEndOfObj m it.objPtr))

def objNextFieldIterator (it : ObjFieldIterator) : ObjFieldIterator :=
  { it with curField := it.curField + memberSize }

def isValidPointer (p : ℕ) : Bool := !unboxed p

def isValidHeapPointer (heap : MemoryChunk) (p : ℕ) : Bool :=
  !unboxed p && decide (heap.begin ≤ p) && decide (p ≤ heap.current)

/-- `for (size_t *ptr = start; ptr < end; ++ptr)`. -/
def wordsBetween (start stop : ℕ) : List ℕ :=
  (List.range ((stop - start + 7) / 8)).map fun i => start + 8 * i

section Loops

variable {σ : Type} (mem : σ → Mem)

/-- `for (it; !heap_is_done_iterator(&it); heap_next_obj_iterator(&it))`, with some fuel. -/
def forObjects (heap : MemoryChunk) (body : σ → ℕ → Option σ) : ℕ → ℕ → σ → Option σ
  | 0, _, _ => none
  | n + 1, it, s =>
    if it ≥ heap.current then some s
    else do
      let s ← body s it
      forObjects heap body n (← heapNextObjIterator (mem s) it) s

/-- The loop from `ptr_field_begin_iterator` by `obj_next_ptr_field_iterator`: the fields that do not
hold a pointer are passed over.  The fuel is for all fields. -/
def forPtrFields (body : σ → ℕ → Option σ) : ℕ → ObjFieldIterator → σ → Option σ
  | 0, _, _ => none
  | n + 1, it, s => do
    if ← fieldIsDoneIterator (mem s) it then return s
    else if isValidPointer (mem s it.curField) then
      forPtrFields body n (objNextFieldIterator it) (← body s it.curField)
    else forPtrFields body n (objNextFieldIterator it) s

end Loops

end Gc

end LamaRv
