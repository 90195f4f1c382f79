import LamaRv.Format
import LamaRv.Runtime.Values
import LamaRv.Tags

/-!
# Printing values (`runtime.c`)

A value is printed by a recursion over its fields, and lists by a loop that follows the second field of
each cell and takes what it finds there for a cell.

* `printValue`: the code, with what it reads and appends to the string buffer, in order;
* `render`: the text of a value;
* `Walks`: whatever is taken for a cell is an s-expression;
* `printValue_spec`: printing stays in the objects just when that holds, and prints the text;
* `printValue_of_proper`: so it does where all lists are proper;
* `printsWell_iff`: the same for a value and the objects that it reaches.
-/

namespace LamaRv.Gc

open Marking WordBytes

/-! ### What a call does -/

/-- Text for the string buffer, a word or a byte that is read, an object that is taken for an
s-expression. -/
inductive Event
  | put (text : List ℕ)
  | word (a : ℕ)
  | byte (a : ℕ)
  | cast (a : ℕ)

/-- The events of a call, in order; nothing where it does not return. -/
def Output := Option (List Event)

namespace Output

def nothing : Output := some []

def put (text : List ℕ) : Output := some [.put text]

def word (a : ℕ) : Output := some [.word a]

/-- Some bytes from `p` on are read. -/
def bytes (p n : ℕ) : Output := some ((List.range n).map fun i => .byte (p + i))

def cast (a : ℕ) : Output := some [.cast a]

def append : Output → Output → Output
  | some es, some es' => some (es ++ es')
  | _, _ => none

instance : Append Output := ⟨append⟩

end Output

/-- The text that is appended to the string buffer. -/
def textOf : List Event → List ℕ
  | [] => []
  | .put text :: es => text ++ textOf es
  | _ :: es => textOf es

namespace Output

/-- The call returns, and all that it does is good. -/
def Safe (good : Event → Prop) (r : Output) : Prop := ∃ es, r = some es ∧ ∀ e ∈ es, good e

/-- If the call returns, it has appended some text. -/
def Shows (r : Output) (text : List ℕ) : Prop := ∀ es, r = some es → textOf es = text

section Rules

variable {good : Event → Prop} {r r' : Output} {t t' : List ℕ}

theorem textOf_append (es es' : List Event) : textOf (es ++ es') = textOf es ++ textOf es' := by
  induction es with
  | nil => rfl
  | cons e es ih => cases e <;> simp [textOf, ih]

theorem append_eq_some {es : List Event} :
    r ++ r' = some es ↔ ∃ a b, r = some a ∧ r' = some b ∧ es = a ++ b := by
  rcases r with _ | a
  · constructor
    · rintro ⟨⟩
    · rintro ⟨_, _, ⟨⟩, _⟩
  · rcases r' with _ | b
    · constructor
      · rintro ⟨⟩
      · rintro ⟨_, _, _, ⟨⟩, _⟩
    · constructor
      · intro h
        exact ⟨a, b, rfl, rfl, (Option.some.inj h).symm⟩
      · rintro ⟨a', b', ha, hb, rfl⟩
        rw [← Option.some.inj ha, ← Option.some.inj hb]
        rfl

theorem safe_some {es : List Event} : Safe good (some es) ↔ ∀ e ∈ es, good e :=
  ⟨fun ⟨_, h, hall⟩ => Option.some.inj h ▸ hall, fun h => ⟨es, rfl, h⟩⟩

theorem safe_append : (r ++ r').Safe good ↔ r.Safe good ∧ r'.Safe good := by
  constructor
  · rintro ⟨es, hes, hall⟩
    obtain ⟨a, b, ha, hb, rfl⟩ := append_eq_some.1 hes
    obtain ⟨hall₁, hall₂⟩ := List.forall_mem_append.1 hall
    exact ⟨⟨a, ha, hall₁⟩, b, hb, hall₂⟩
  · rintro ⟨⟨a, ha, hall₁⟩, b, hb, hall₂⟩
    exact ⟨a ++ b, append_eq_some.2 ⟨a, b, ha, hb, rfl⟩, List.forall_mem_append.2 ⟨hall₁, hall₂⟩⟩

@[simp] theorem safe_nothing : nothing.Safe good := safe_some.2 (by simp)

@[simp] theorem safe_put : (put t).Safe good ↔ good (.put t) := safe_some.trans (by simp)

@[simp] theorem safe_word {a : ℕ} : (word a).Safe good ↔ good (.word a) := safe_some.trans (by simp)

@[simp] theorem safe_cast {a : ℕ} : (cast a).Safe good ↔ good (.cast a) := safe_some.trans (by simp)

theorem Shows.append (h : r.Shows t) (h' : r'.Shows t') : (r ++ r').Shows (t ++ t') := by
  intro es hes
  obtain ⟨a, b, ha, hb, rfl⟩ := append_eq_some.1 hes
  rw [textOf_append, h a ha, h' b hb]

/-- A call before which nothing has been appended. -/
theorem Shows.after (h : r.Shows []) (h' : r'.Shows t) : (r ++ r').Shows t := h.append h'

theorem shows_nothing : nothing.Shows [] := fun _ h => by cases h; rfl

theorem shows_put : (put t).Shows t := fun _ h => by cases h; exact List.append_nil t

theorem shows_word (a : ℕ) : (word a).Shows [] := fun _ h => by cases h; rfl

theorem shows_cast (a : ℕ) : (cast a).Shows [] := fun _ h => by cases h; rfl

theorem shows_bytes (p n : ℕ) : (bytes p n).Shows [] := by
  intro es h
  obtain rfl := Option.some.inj h
  induction List.range n with
  | nil => rfl
  | cons i is ih => exact ih

/-- The call is safe just when `safe` holds, and shows a text if `proper` does. -/
def Does (good : Event → Prop) (r : Output) (safe proper : Prop) (t : List ℕ) : Prop :=
  (r.Safe good ↔ safe) ∧ (proper → r.Shows t)

variable {safe safe' proper proper' : Prop}

theorem does_of_safe (h : r.Safe good) (ht : r.Shows t) : Does good r True True t :=
  ⟨iff_of_true h trivial, fun _ => ht⟩

theorem Does.append (h : Does good r safe proper t) (h' : Does good r' safe' proper' t') :
    Does good (r ++ r') (safe ∧ safe') (proper ∧ proper') (t ++ t') :=
  ⟨safe_append.trans (and_congr h.1 h'.1), fun hp => (h.2 hp.1).append (h'.2 hp.2)⟩

theorem Does.congr (h : Does good r safe proper t) (hs : safe' ↔ safe) (hp : proper' → proper)
    (ht : proper' → t' = t) : Does good r safe' proper' t' :=
  ⟨h.1.trans hs.symm, fun h' => ht h' ▸ h.2 (hp h')⟩

/-- Before a call something safe. -/
theorem Does.after (h : r.Safe good) (ht : r.Shows t) (h' : Does good r' safe proper t') :
    Does good (r ++ r') safe proper (t ++ t') :=
  ((does_of_safe h ht).append h').congr (iff_of_eq (true_and _)).symm (fun hp => ⟨trivial, hp⟩) fun _ => rfl

/-- Before a call something safe that appends nothing. -/
theorem Does.read (h : r.Safe good) (ht : r.Shows []) (h' : Does good r' safe proper t') :
    Does good (r ++ r') safe proper t' :=
  Does.after h ht h'

/-- After a call something safe. -/
theorem Does.then (h' : Does good r' safe proper t') (h : r.Safe good) (ht : r.Shows t) :
    Does good (r' ++ r) safe proper (t' ++ t) :=
  (h'.append (does_of_safe h ht)).congr (iff_of_eq (and_true _)).symm (fun hp => ⟨hp, trivial⟩) fun _ => rfl

end Rules

end Output

/-! ### The code -/

open Output

def ascii (s : String) : List ℕ := s.toList.map Char.toNat

/-- `%ld`. -/
def decimal (n : ℤ) : List ℕ := ascii (toString n)

/-- `0x%x`, of the lower half of a word. -/
def hexadecimal (x : ℕ) : List ℕ := ascii (formatHex (x % 2 ^ 32))

/-- `"%s"` between quotes. -/
def printString (m : Mem) (p : ℕ) : Output :=
  match strlen m p with
  | some k =>
    bytes p (k + 1) ++
      put (ascii "\"" ++ ((List.range k).map fun i => byteAt m (p + i)) ++ ascii "\"")
  | none => none

/-- The loop over the fields, with a comma after each one but the last. -/
def printFields (item : ℕ → ℕ → Output) (m : Mem) (contents len : ℕ) : List ℕ → Output
  | [] => nothing
  | i :: is =>
    word (contents + 8 * i) ++ (item i (m (contents + 8 * i)) ++
      ((if i ≠ len - 1 then put (ascii ", ") else nothing) ++ printFields item m contents len is))

/-- The loop over the cells of a list, from the header `sb` on, with some fuel. -/
def printCells (print : ℕ → Output) (m : Mem) : ℕ → ℕ → Output
  | 0, _ => none
  | n + 1, sb =>
    word sb ++
      if len (m sb) ≠ 0 then
        let listNext := m (sb + 32)
        word (sb + 24) ++ (print (m (sb + 24)) ++ (word (sb + 32) ++
          if !unboxed listNext then
            put (ascii ", ") ++ (cast (toData listNext) ++ printCells print m n (toData listNext))
          else nothing))
      else nothing

section Contents

variable (print : ℕ → Output) (m : Mem) (n p : ℕ)

/-- `printValue` for a closure. -/
def printClosure : Output :=
  let l := len (m (toData p))
  put (ascii "<closure ") ++
    (printFields (fun i x => if i ≠ 0 then print x else put (hexadecimal x)) m p l (List.range' 0 l) ++
      put (ascii ">"))

/-- `printValue` for an array. -/
def printArray : Output :=
  let l := len (m (toData p))
  put (ascii "[") ++ (printFields (fun _ => print) m p l (List.range' 0 l) ++ put (ascii "]"))

/-- `printValue` for an s-expression; a list is printed without its constructor. -/
def printSexp : Output :=
  let l := len (m (toData p))
  cast (toData p) ++ (word p ++
    match deHash (aint (m p)) with
    | some tag =>
      if tag = "cons".toList then
        put (ascii "\x7b") ++ (printCells print m n (toData p) ++ put (ascii "\x7d"))
      else
        put (tag.map Char.toNat) ++
          if l ≠ 0 then
            put (ascii " (") ++
              (printFields (fun _ => print) m (p + 8) l (List.range' 0 l) ++ put (ascii ")"))
          else nothing
    | none => none)

end Contents

/-- `printValue`, with some fuel. -/
def printValue (heap : MemoryChunk) (m : Mem) : ℕ → ℕ → Output
  | 0, _ => none
  | n + 1, p =>
    if unboxed p then put (decimal (unbox p))
    else if !isValidHeapPointer heap p then put (hexadecimal p)
    else
      word (toData p) ++
        switchTag (tag (m (toData p))) (printString m p) (printClosure (printValue heap m n) m p)
          (printArray (printValue heap m n) m p) (printSexp (printValue heap m n) m (n + 1) p)
          (put (ascii "*** invalid data_header: " ++ hexadecimal (tag (m (toData p))) ++ ascii " ***"))

/-! ### The text of a value -/

/-- The constructor of lists. -/
def IsCons (t : ℤ) : Prop := deHash t = some "cons".toList

instance (t : ℤ) : Decidable (IsCons t) := inferInstanceAs (Decidable (_ = _))

namespace Value

/-- The text of a constructor. -/
def tagText (t : ℤ) : List ℕ := ((deHash t).getD []).map Char.toNat

def commas (texts : List (List ℕ)) : List ℕ := (ascii ", ").intercalate texts

mutual

/-- The text of a value. -/
def render : Value → List ℕ
  | .int n => decimal n
  | .pointer a => hexadecimal a
  | .string bytes => ascii "\"" ++ text bytes ++ ascii "\""
  | .array vs => ascii "[" ++ commas (renderAll vs) ++ ascii "]"
  | .sexp t vs =>
    if IsCons t then ascii "\x7b" ++ commas (renderList vs) ++ ascii "\x7d"
    else tagText t ++ if vs = [] then [] else ascii " (" ++ commas (renderAll vs) ++ ascii ")"
  | .closure code vs => ascii "<closure " ++ commas (hexadecimal code :: renderAll vs) ++ ascii ">"

def renderAll : List Value → List (List ℕ)
  | [] => []
  | v :: vs => render v :: renderAll vs

/-- The elements of a list whose first cell has some fields. -/
def renderList : List Value → List (List ℕ)
  | [] => []
  | v :: vs => render v :: renderRest vs

def renderRest : List Value → List (List ℕ)
  | [] => []
  | v :: _ => renderTail v

def renderTail : Value → List (List ℕ)
  | .sexp _ vs => renderList vs
  | _ => []

end

mutual

/-- Each list in the value is made of cells of two fields and ends in an integer. -/
def Proper : Value → Prop
  | .int _ | .pointer _ | .string _ => True
  | .array vs | .closure _ vs => ProperAll vs
  | .sexp t vs => if IsCons t then ProperList vs else ProperAll vs

def ProperAll : List Value → Prop
  | [] => True
  | v :: vs => Proper v ∧ ProperAll vs

def ProperList : List Value → Prop
  | [] => False
  | v :: vs => Proper v ∧ ProperRest vs

def ProperRest : List Value → Prop
  | [] => False
  | v :: vs => vs = [] ∧ ProperTail v

def ProperTail : Value → Prop
  | .int _ => True
  | .sexp t vs => IsCons t ∧ ProperList vs
  | _ => False

end

mutual

/-- The constructors in the value have names. -/
def Named : Value → Prop
  | .int _ | .pointer _ | .string _ => True
  | .array vs | .closure _ vs => NamedAll vs
  | .sexp t vs => (∃ name, runtimeLtagHash name = .ok (2 * t + 1)) ∧ NamedAll vs

def NamedAll : List Value → Prop
  | [] => True
  | v :: vs => Named v ∧ NamedAll vs

end

end Value

/-! ### What is taken for a cell -/

section Walks

variable (m : Mem) (R : ℕ → Prop)

/-- A word of one of some objects. -/
def WordIn (a : ℕ) : Prop := ∃ o, R o ∧ o ≤ a ∧ a + 8 ≤ o + objBytes m o

/-- What a call may do with some objects. -/
def Event.Good : Event → Prop
  | .put _ => True
  | .word a => WordIn m R a
  | .byte a => ∃ o, R o ∧ o ≤ a ∧ a < o + objBytes m o
  | .cast a => R a ∧ getTypeHeaderPtr m a = some .sexp

mutual

/-- In all lists of the value at a word, what is taken for a cell is an s-expression. -/
def Walks : Value → ℕ → Prop
  | .int _, _ | .pointer _, _ | .string _, _ => True
  | .array vs, w => WalksAll vs w
  | .closure _ vs, w => WalksAll vs (w + 8)
  | .sexp t vs, w => if IsCons t then WalksList vs (w + 8) else WalksAll vs (w + 8)

def WalksAll : List Value → ℕ → Prop
  | [], _ => True
  | v :: vs, a => Walks v (m a) ∧ WalksAll vs (a + 8)

/-- The cell whose fields are the words from `a` on. -/
def WalksList : List Value → ℕ → Prop
  | [], _ => True
  | v :: vs, a => Walks v (m a) ∧ WalksRest vs (a + 8)

/-- A cell with one field is followed by an object. -/
def WalksRest : List Value → ℕ → Prop
  | [], a => WordIn m R a
  | v :: _, a => WalksTail v (m a)

def WalksTail : Value → ℕ → Prop
  | .int _, _ => True
  | .sexp _ vs, w => WalksList vs (w + 8)
  | _, _ => False

end

variable {m R}

mutual

/-- A loop over a proper list meets nothing but cells. -/
theorem walks_of_proper {v : Value} {w : ℕ} (h : v.Proper) : Walks m R v w := by
  cases v with
  | int _ | pointer _ | string _ =>
    rw [Walks]
    trivial
  | array vs | closure _ vs =>
    rw [Value.Proper] at h
    rw [Walks]
    exact walksAll_of_proper h
  | sexp t vs =>
    rw [Value.Proper] at h
    rw [Walks]
    by_cases hcons : IsCons t
    · rw [if_pos hcons] at h ⊢
      exact walksList_of_proper h
    · rw [if_neg hcons] at h ⊢
      exact walksAll_of_proper h

theorem walksAll_of_proper {vs : List Value} {a : ℕ} (h : Value.ProperAll vs) :
    WalksAll m R vs a := by
  cases vs with
  | nil =>
    rw [WalksAll]
    trivial
  | cons v vs =>
    rw [Value.ProperAll] at h
    rw [WalksAll]
    exact ⟨walks_of_proper h.1, walksAll_of_proper h.2⟩

theorem walksList_of_proper {vs : List Value} {a : ℕ} (h : Value.ProperList vs) :
    WalksList m R vs a := by
  cases vs with
  | nil =>
    rw [WalksList]
    trivial
  | cons v vs =>
    rw [Value.ProperList] at h
    rw [WalksList]
    exact ⟨walks_of_proper h.1, walksRest_of_proper h.2⟩

theorem walksRest_of_proper {vs : List Value} {a : ℕ} (h : Value.ProperRest vs) :
    WalksRest m R vs a := by
  cases vs with
  | nil =>
    rw [Value.ProperRest] at h
    exact h.elim
  | cons v vs =>
    rw [Value.ProperRest] at h
    rw [WalksRest]
    cases v with
    | int _ =>
      rw [WalksTail]
      trivial
    | sexp t ws =>
      rw [Value.ProperTail] at h
      rw [WalksTail]
      exact walksList_of_proper h.2.2
    | pointer _ | string _ | array _ | closure _ _ =>
      simp only [Value.ProperTail, and_false] at h

end

end Walks

/-! ### The objects of a value -/

section Objects

variable {heap : MemoryChunk} {m : Mem} {os : List ℕ} {R : ℕ → Prop} {w n a o : ℕ} {v : Value}

/-- The objects of `R` are objects of the heap, and what they refer to is in `R` again. -/
structure Owned (heap : MemoryChunk) (m : Mem) (os : List ℕ) (R : ℕ → Prop) : Prop where
  mem : ∀ o, R o → o ∈ os
  closed : ∀ o, R o → ∀ o' ∈ targets heap m o, R o'

/-- The words from `a` on are fields of objects of `R`. -/
structure FieldsIn (heap : MemoryChunk) (m : Mem) (R : ℕ → Prop) (a n : ℕ) : Prop where
  word : ∀ j < n, WordIn m R (a + 8 * j)
  next : ∀ j < n, isValidHeapPointer heap (m (a + 8 * j)) = true → R (m (a + 8 * j) - 16)

theorem FieldsIn.head (h : FieldsIn heap m R a (n + 1)) :
    WordIn m R a ∧ (isValidHeapPointer heap (m a) = true → R (m a - 16)) :=
  ⟨h.word 0 (Nat.zero_lt_succ n), h.next 0 (Nat.zero_lt_succ n)⟩

theorem FieldsIn.tail (h : FieldsIn heap m R a (n + 1)) : FieldsIn heap m R (a + 8) n := by
  have hnext (j : ℕ) : a + 8 + 8 * j = a + 8 * (j + 1) := by omega
  constructor
  · intro j hj
    rw [hnext]
    exact h.word (j + 1) (Nat.succ_lt_succ hj)
  · intro j hj
    rw [hnext]
    exact h.next (j + 1) (Nat.succ_lt_succ hj)

theorem Owned.field (h : Owned heap m os R) (ho : R o) {f : ℕ} (hf : f ∈ fields m o)
    (hvalid : isValidHeapPointer heap (m f) = true) : R (m f - 16) :=
  h.closed o ho _ (List.mem_filterMap.2 ⟨f, hf, by rw [if_pos hvalid]⟩)

/-- A word of the contents of an object. -/
theorem wordIn_contents {t : LamaType} (hobj : ObjectAt m os t n w) (hw : R (w - 16)) {j : ℕ}
    (hj : 24 + 8 * j ≤ t.bytes n) : WordIn m R (w + 8 * j) := by
  obtain ⟨o, -, rfl, ht, hlen, -⟩ := hobj
  rw [Nat.add_sub_cancel] at hw
  refine ⟨o, hw, by omega, ?_⟩
  rw [objBytes, ht, hlen]
  show o + 16 + 8 * j + 8 ≤ o + t.bytes n
  omega

theorem Owned.fields_array (h : Owned heap m os R) (hobj : ObjectAt m os .array n w)
    (hw : R (w - 16)) : FieldsIn heap m R w n := by
  refine ⟨fun j hj => wordIn_contents hobj hw (by rw [LamaType.bytes]; omega), fun j hj => ?_⟩
  obtain ⟨o, -, rfl, ht, hlen, -⟩ := hobj
  rw [Nat.add_sub_cancel] at hw
  exact h.field hw (mem_fields_array ht (by omega))

theorem Owned.fields_sexp (h : Owned heap m os R) (hobj : ObjectAt m os .sexp n w)
    (hw : R (w - 16)) : FieldsIn heap m R (w + 8) n := by
  have hnext (j : ℕ) : w + 8 + 8 * j = w + 8 * (j + 1) := by omega
  refine ⟨fun j hj => ?_, fun j hj => ?_⟩
  · rw [hnext]
    exact wordIn_contents hobj hw (by rw [LamaType.bytes]; omega)
  · obtain ⟨o, -, rfl, ht, hlen, -⟩ := hobj
    rw [Nat.add_sub_cancel] at hw
    exact h.field hw (mem_fields_sexp ht (by omega))

theorem Owned.fields_closure (h : Owned heap m os R) (hobj : ObjectAt m os .closure (n + 1) w)
    (hw : R (w - 16)) : FieldsIn heap m R (w + 8) n := by
  have hnext (j : ℕ) : w + 8 + 8 * j = w + 8 * (j + 1) := by omega
  refine ⟨fun j hj => ?_, fun j hj => ?_⟩
  · rw [hnext]
    exact wordIn_contents hobj hw (by rw [LamaType.bytes]; omega)
  · obtain ⟨o, -, rfl, ht, hlen, -⟩ := hobj
    rw [Nat.add_sub_cancel] at hw
    exact h.field hw (mem_fields_closure ht (by omega))

/-- The words of the header, and the first word of the contents. -/
theorem wordIn_header (hs : Sound m o) (ho : R o) : WordIn m R o := by
  have := hs.le_bytes
  exact ⟨o, ho, le_rfl, by omega⟩

/-- The word behind an object is the header of the next one, if it belongs to an object at all. -/
theorem unboxed_of_wordIn (hos : Placed heap m os) (hR : Owned heap m os R) (ho : o ∈ os)
    (h : WordIn m R (o + 8 * objWords m o)) : unboxed (m (o + 8 * objWords m o)) = true := by
  obtain ⟨o', ho', hle, hge⟩ := h
  have hmem := hR.mem o' ho'
  have hs := hos.objects.sound o' hmem
  have hbytes := hs.bytes_le_words
  have htwo := (hos.objects.sound o ho).two_le_words
  have heq : o' = o + 8 * objWords m o := by
    by_contra hne
    have hsame : o' = o := by
      by_cases hlt : o' ≤ o
      · exact hos.objects.owner_unique hmem ho (x := o) (by omega) (by omega)
      · exact hos.objects.owner_unique hmem ho (x := o') (by omega) (by omega)
    rw [hsame] at hge hbytes
    omega
  rw [← heq]
  obtain ⟨t, ht⟩ := Option.isSome_iff_exists.1 hs.type
  have htag := tag_of_type ht
  rw [Gc.tag, Nat.and_two_pow_sub_one_eq_mod _ 3] at htag
  rw [unboxed_iff]
  cases t <;> rw [LamaType.tag] at htag <;> omega

/-- What is taken for a cell is one just when it is an s-expression. -/
theorem not_good_cast {k : Kind} (hw : HasKind heap m k w) (hos : Placed heap m os)
    (hR : Owned heap m os R) (hk : k ≠ .int) (hk' : k ≠ .object .sexp) :
    ¬ (Event.cast (toData w)).Good m R := by
  rintro ⟨hmem, ht⟩
  cases k with
  | int => exact hk rfl
  | pointer =>
    obtain ⟨heven, hout⟩ := hw
    have hbounds := hos.objects.bounds _ (hR.mem _ hmem)
    have htwo := (hos.objects.sound _ (hR.mem _ hmem)).two_le_words
    have hdata : toData w = w - 16 := rfl
    rw [hdata] at hbounds htwo
    have hin : isValidHeapPointer heap w = true := by
      simp only [isValidHeapPointer, heven, Bool.not_false, Bool.true_and, Bool.and_eq_true,
        decide_eq_true_eq]
      omega
    rw [hin] at hout
    cases hout
  | object t =>
    rw [HasKind, ht] at hw
    exact hk' (congrArg Kind.object (Option.some.inj hw.2.2).symm)

/-- A constructor with a name is unpacked. -/
theorem deHash_of_named {t : ℤ} {name : String} (h : runtimeLtagHash name = .ok (2 * t + 1)) :
    ∃ tag, deHash t = some tag := by
  unfold runtimeLtagHash tagHash at h
  rcases hloop : tagHashLoop _ name.toList maxSexpTaglen 0 with e | k
  · rw [hloop] at h
    cases h
  · rw [hloop] at h
    simp only [bind, Except.bind] at h
    split_ifs at h with hback
    · have htag : (k : ℤ) = t := by
        have := Except.ok.inj h
        omega
      rw [htag] at hback
      obtain ⟨tag, htag', -⟩ := Option.map_eq_some_iff.1 hback
      exact ⟨tag, htag'⟩

/-- A string is printed up to its first zero. -/
theorem printString_spec {bytes : List ℕ} (hv : Represents heap m os (.string bytes) w)
    (hw : R (w - 16)) :
    (printString m w).Safe (Event.Good m R) ∧
      (printString m w).Shows (Value.render (.string bytes)) := by
  rw [Represents] at hv
  obtain ⟨hobj, hbytes, hzero⟩ := hv
  have htext := textAt_of_bytes hobj hbytes hzero
  have hle := text_length_le bytes
  have hlt := hobj.length_lt
  have hlen := strlenLoop_of_textAt htext (n := 2 ^ 64) (by omega)
  have hprint : printString m w = Output.bytes w ((Value.text bytes).length + 1) ++
      put (ascii "\"" ++ Value.text bytes ++ ascii "\"") := by
    rw [printString, strlen, hlen]
    simp only [bytes_of_textAt htext]
  rw [hprint]
  constructor
  · refine safe_append.2 ⟨safe_some.2 fun e he => ?_, safe_put.2 trivial⟩
    obtain ⟨i, hi, rfl⟩ := List.mem_map.1 he
    have hi := List.mem_range.1 hi
    obtain ⟨o, -, rfl, ht, hlen, -⟩ := hobj
    rw [Nat.add_sub_cancel] at hw
    have hsize : objBytes m o = 16 + bytes.length + 1 := by
      rw [objBytes, ht, hlen]
      rfl
    exact ⟨o, hw, by omega, by omega⟩
  · rw [Value.render]
    exact (shows_bytes _ _).after shows_put

end Objects

/-! ### Printing a value -/

section Print

variable {heap : MemoryChunk} {m : Mem} {os : List ℕ} {R : ℕ → Prop}

theorem Value.renderList_ne_nil {vs : List Value} (h : Value.ProperList vs) :
    Value.renderList vs ≠ [] := by
  cases vs with
  | nil =>
    rw [Value.ProperList] at h
    exact h.elim
  | cons v vs =>
    rw [Value.renderList]
    exact List.cons_ne_nil _ _

/-- A comma stands before each text but the first. -/
theorem Value.commas_cons (t : List ℕ) (ts : List (List ℕ)) :
    Value.commas (t :: ts) = t ++ ts.flatMap (ascii ", " ++ ·) := by
  induction ts generalizing t with
  | nil => simp [Value.commas]
  | cons t' ts ih =>
    have hcons : Value.commas (t :: t' :: ts) = t ++ ascii ", " ++ Value.commas (t' :: ts) :=
      List.intercalate_cons_cons
    rw [hcons, ih, List.flatMap_cons, List.append_assoc, List.append_assoc]

/-- A field, a comma if it is not the last one, and the fields behind it. -/
theorem Output.Does.comma {good : Event → Prop} {r r' : Output} {safe safe' proper proper' : Prop}
    {t : List ℕ} {ts : List (List ℕ)} {i len : ℕ} (h : Does good r safe proper t)
    (hcomma : good (.put (ascii ", "))) (h' : Does good r' safe' proper' (Value.commas ts))
    (hlast : i = len - 1 ↔ ts = []) :
    Does good (r ++ ((if i ≠ len - 1 then put (ascii ", ") else nothing) ++ r')) (safe ∧ safe')
      (proper ∧ proper') (Value.commas (t :: ts)) := by
  rw [Value.commas_cons]
  cases ts with
  | nil =>
    rw [if_neg (not_not.2 (hlast.2 rfl))]
    exact h.append (Does.read safe_nothing shows_nothing h')
  | cons t' ts =>
    rw [if_pos (mt hlast.1 (List.cons_ne_nil _ _)), List.flatMap_cons, List.append_assoc,
      ← Value.commas_cons]
    exact h.append (Does.after (safe_put.2 hcomma) shows_put h')

theorem Value.renderAll_eq_nil {vs : List Value} : Value.renderAll vs = [] ↔ vs.length = 0 := by
  cases vs <;> simp [Value.renderAll]

theorem HasKind.not_unboxed {k : Kind} {w : ℕ} (h : HasKind heap m k w) (hk : k ≠ .int) :
    unboxed w = false := by
  cases k with
  | int => exact absurd rfl hk
  | pointer => exact h.1
  | object t => exact h.1

/-- Of an object the header is read, and what follows depends on its kind. -/
theorem printValue_object {t : LamaType} {k w n : ℕ} (hos : Placed heap m os)
    (hobj : ObjectAt m os t k w) :
    printValue heap m (n + 1) w = word (toData w) ++
      switchTag t.tag (printString m w) (printClosure (printValue heap m n) m w)
        (printArray (printValue heap m n) m w) (printSexp (printValue heap m n) m (n + 1) w)
        (put (ascii "*** invalid data_header: " ++ hexadecimal t.tag ++ ascii " ***")) := by
  have heven := hobj.not_unboxed hos
  have hvalid := hobj.valid hos
  rw [printValue, if_neg (Bool.eq_false_iff.1 heven), hvalid, hobj.tag]
  rfl

theorem safe_header {w : ℕ} (hos : Placed heap m os) (hR : Owned heap m os R) (hw : R (w - 16)) :
    (word (toData w)).Safe (Event.Good m R) :=
  safe_word.2 (wordIn_header (hos.objects.sound _ (hR.mem _ hw)) hw)

mutual

/-- **Printing a value** stays in its objects just when whatever is taken for a cell is an s-expression,
and appends the text of the value. -/
theorem printValue_spec (hos : Placed heap m os) (hR : Owned heap m os R) {v : Value} {w n : ℕ}
    (hv : Represents heap m os v w) (hw : isValidHeapPointer heap w = true → R (w - 16))
    (hnamed : v.Named) (hn : v.weight ≤ n) :
    Does (Event.Good m R) (printValue heap m n w) (Walks m R v w) v.Proper v.render := by
  obtain ⟨n, rfl⟩ := Nat.exists_eq_add_one.2 (v.weight_pos.trans_le hn)
  cases v with
  | int x =>
    rw [Represents] at hv
    rw [printValue, if_pos hv.2.1, hv.2.2, Walks, Value.Proper, Value.render]
    exact does_of_safe (safe_put.2 trivial) shows_put
  | pointer a =>
    rw [Represents] at hv
    obtain ⟨-, heven, hout, rfl⟩ := hv
    rw [printValue, if_neg (Bool.eq_false_iff.1 heven), hout, Walks, Value.Proper, Value.render]
    exact does_of_safe (safe_put.2 trivial) shows_put
  | string bytes =>
    have hobj := hv
    rw [Represents] at hobj
    have hw := hw (hobj.1.valid hos)
    obtain ⟨hsafe, hshows⟩ := printString_spec hv hw
    rw [printValue_object hos hobj.1, switchTag_string, Walks, Value.Proper]
    exact does_of_safe (safe_append.2 ⟨safe_header hos hR hw, hsafe⟩)
      ((shows_word _).after hshows)
  | array vs =>
    rw [Represents] at hv
    obtain ⟨hobj, hvs⟩ := hv
    have hw := hw (hobj.valid hos)
    rw [Value.Named] at hnamed
    rw [Value.weight] at hn
    have hitems : Does _ (printFields (fun _ => printValue heap m n) m w _ _) _ _ _ :=
      printFields_spec hos hR (i := 0) hvs rfl (Nat.zero_add _) (fun _ _ => rfl)
        (hR.fields_array hobj hw) hnamed (by omega)
    rw [printValue_object hos hobj, switchTag_array, printArray, hobj.len_eq, Walks, Value.Proper,
      Value.render, List.append_assoc]
    exact Does.read (safe_header hos hR hw) (shows_word _)
      (Does.after (safe_put.2 trivial) shows_put (hitems.then (safe_put.2 trivial) shows_put))
  | closure code vs =>
    rw [Represents] at hv
    obtain ⟨hobj, hcode, -, hvs⟩ := hv
    have hw := hw (hobj.valid hos)
    rw [Value.Named] at hnamed
    rw [Value.weight] at hn
    have hitems : Does _ (printFields
        (fun i x => if i ≠ 0 then printValue heap m n x else put (hexadecimal x)) m w _ _) _ _ _ :=
      printFields_spec hos hR (i := 1) hvs rfl (Nat.add_comm 1 vs.length)
        (fun j hj => funext fun _ => if_pos (by omega)) (hR.fields_closure hobj hw) hnamed (by omega)
    have hfirst : (word w).Safe (Event.Good m R) :=
      safe_word.2 (wordIn_contents (j := 0) hobj hw (by rw [LamaType.bytes]; omega))
    rw [printValue_object hos hobj, switchTag_closure, printClosure, hobj.len_eq, Walks, Value.Proper,
      Value.render, List.append_assoc]
    refine Does.read (safe_header hos hR hw) (shows_word _)
      (Does.after (safe_put.2 trivial) shows_put (Does.then ?_ (safe_put.2 trivial) shows_put))
    have hcode' : Does (Event.Good m R) (put (hexadecimal code)) True True (hexadecimal code) :=
      does_of_safe (safe_put.2 trivial) shows_put
    rw [List.range'_succ, printFields, Nat.mul_zero, Nat.add_zero, hcode]
    refine Does.read hfirst (shows_word _) ((hcode'.comma trivial hitems ?_).congr
      (iff_of_eq (true_and _)).symm (fun h => ⟨trivial, h⟩) fun _ => rfl)
    rw [Value.renderAll_eq_nil]
    omega
  | sexp t vs =>
    rw [Represents] at hv
    obtain ⟨hobj, htag, -, -, hvs⟩ := hv
    have hw := hw (hobj.valid hos)
    rw [Value.Named] at hnamed
    rw [Value.weight] at hn
    obtain ⟨⟨_, hhash⟩, hnamed⟩ := hnamed
    obtain ⟨tag, hname⟩ := deHash_of_named hhash
    have hcast : (cast (toData w)).Safe (Event.Good m R) := safe_cast.2 ⟨hw, hobj.type⟩
    have hword : (word w).Safe (Event.Good m R) :=
      safe_word.2 (wordIn_contents (j := 0) hobj hw (by rw [LamaType.bytes]; omega))
    rw [printValue_object hos hobj, switchTag_sexp, printSexp, hobj.len_eq, htag, hname, Walks,
      Value.Proper, Value.render]
    refine Does.read (safe_header hos hR hw) (shows_word _)
      (Does.read hcast (shows_cast _) (Does.read hword (shows_word _) ?_))
    by_cases hcons : IsCons t
    · have htext : tag = "cons".toList := Option.some.inj (hname.symm.trans hcons)
      have hcells := printCells_spec hos hR (n := n) (k := n + 1) hobj hw hvs hnamed (by omega) (by omega)
      simp only [if_pos hcons, if_pos htext, List.append_assoc]
      exact Does.after (safe_put.2 trivial) shows_put (hcells.then (safe_put.2 trivial) shows_put)
    · have htext : tag ≠ "cons".toList := fun h => hcons (hname.trans (congrArg some h))
      have htag : Value.tagText t = tag.map Char.toNat := by rw [Value.tagText, hname, Option.getD_some]
      simp only [if_neg hcons, if_neg htext, htag]
      refine Does.after (safe_put.2 trivial) shows_put ?_
      by_cases hempty : vs = []
      · subst hempty
        rw [WalksAll, Value.ProperAll]
        exact does_of_safe safe_nothing shows_nothing
      · have hitems : Does _ (printFields (fun _ => printValue heap m n) m (w + 8) _ _) _ _ _ :=
          printFields_spec hos hR (i := 0) hvs rfl (Nat.zero_add _) (fun _ _ => rfl)
            (hR.fields_sexp hobj hw) hnamed (by omega)
        rw [if_neg hempty, if_pos (mt List.eq_nil_of_length_eq_zero hempty), List.append_assoc]
        exact Does.after (safe_put.2 trivial) shows_put (hitems.then (safe_put.2 trivial) shows_put)

/-- The fields are printed one after the other. -/
theorem printFields_spec (hos : Placed heap m os) (hR : Owned heap m os R) {vs : List Value}
    {a contents len i n : ℕ} {item : ℕ → ℕ → Output} (hv : RepresentsAll heap m os vs a)
    (ha : contents + 8 * i = a) (hlen : i + vs.length = len)
    (hitem : ∀ j ≥ i, item j = printValue heap m n) (hfields : FieldsIn heap m R a vs.length)
    (hnamed : Value.NamedAll vs) (hn : Value.weightAll vs ≤ n) :
    Does (Event.Good m R) (printFields item m contents len (List.range' i vs.length))
      (WalksAll m R vs a) (Value.ProperAll vs) (Value.commas (Value.renderAll vs)) := by
  cases vs with
  | nil =>
    rw [WalksAll, Value.ProperAll]
    exact does_of_safe safe_nothing shows_nothing
  | cons v vs =>
    rw [RepresentsAll] at hv
    rw [Value.NamedAll] at hnamed
    rw [Value.weightAll] at hn
    rw [List.length_cons] at hlen hfields
    have hhead := printValue_spec hos hR hv.1 hfields.head.2 hnamed.1 (n := n) (by omega)
    have hrest : Does _ (printFields item m contents len (List.range' (i + 1) vs.length)) _ _ _ :=
      printFields_spec hos hR hv.2 (by omega) (by omega) (fun j hj => hitem j (by omega))
        hfields.tail hnamed.2 (by omega)
    have hword : (word a).Safe (Event.Good m R) := safe_word.2 hfields.head.1
    rw [List.length_cons, List.range'_succ, printFields, ha, hitem i le_rfl, WalksAll,
      Value.ProperAll, Value.renderAll]
    refine Does.read hword (shows_word _) (hhead.comma trivial hrest ?_)
    rw [Value.renderAll_eq_nil]
    omega

/-- The cells of a list are printed one after the other. -/
theorem printCells_spec (hos : Placed heap m os) (hR : Owned heap m os R) {vs : List Value}
    {w k n : ℕ} (hobj : ObjectAt m os .sexp vs.length w) (hw : R (w - 16))
    (hv : RepresentsAll heap m os vs (w + 8)) (hnamed : Value.NamedAll vs)
    (hn : Value.weightAll vs ≤ n) (hk : Value.weightAll vs < k) :
    Does (Event.Good m R) (printCells (printValue heap m n) m k (toData w))
      (WalksList m R vs (w + 8)) (Value.ProperList vs) (Value.commas (Value.renderList vs)) := by
  obtain ⟨k, rfl⟩ := Nat.exists_eq_add_one.2 (Nat.zero_lt_of_lt hk)
  have hfields := hR.fields_sexp hobj hw
  have hlen := hobj.len_eq
  obtain ⟨o, -, rfl, ht, -⟩ := hobj
  rw [Nat.add_sub_cancel] at hw
  rw [toData_add] at hlen ⊢
  have hheader : (word o).Safe (Event.Good m R) :=
    safe_word.2 (wordIn_header (hos.objects.sound o (hR.mem o hw)) hw)
  rw [printCells, hlen]
  refine Does.read hheader (shows_word _) ?_
  cases vs with
  | nil =>
    rw [WalksList, Value.ProperList]
    exact (does_of_safe safe_nothing shows_nothing).congr Iff.rfl False.elim False.elim
  | cons v vs =>
    rw [RepresentsAll] at hv
    rw [Value.NamedAll] at hnamed
    rw [Value.weightAll] at hn hk
    have hhead := printValue_spec hos hR hv.1 hfields.head.2 hnamed.1 (n := n) (by omega)
    have hnext : vs = [] → WordIn m R (o + 32) → unboxed (m (o + 32)) = true := by
      rintro rfl
      have hwords : objWords m o = 4 := by
        simp [objWords, objBytes, ht, hlen, LamaType.bytes, words]
      have hbehind := unboxed_of_wordIn hos hR (hR.mem o hw)
      rwa [hwords] at hbehind
    have hrest := printRest_spec hos hR (n := n) (k := k) hv.2 hfields.tail hnext hnamed.2 (by omega)
      (by have := v.weight_pos; omega)
    rw [if_pos (List.length_cons ▸ Nat.succ_ne_zero _), WalksList, Value.ProperList, Value.renderList, Value.commas_cons]
    exact Does.read (safe_word.2 hfields.head.1) (shows_word _) (hhead.append hrest)

/-- Behind the first field of a cell the loop takes whatever is no integer for the next cell. -/
theorem printRest_spec (hos : Placed heap m os) (hR : Owned heap m os R) {vs : List Value}
    {a k n : ℕ} (hv : RepresentsAll heap m os vs a) (hfields : FieldsIn heap m R a vs.length)
    (hnext : vs = [] → WordIn m R a → unboxed (m a) = true) (hnamed : Value.NamedAll vs)
    (hn : Value.weightAll vs ≤ n) (hk : Value.weightAll vs ≤ k) :
    Does (Event.Good m R)
      (word a ++ if !unboxed (m a) then put (ascii ", ") ++ (cast (toData (m a)) ++
        printCells (printValue heap m n) m k (toData (m a))) else nothing)
      (WalksRest m R vs a) (Value.ProperRest vs) ((Value.renderRest vs).flatMap (ascii ", " ++ ·)) := by
  cases vs with
  | nil =>
    rw [WalksRest, Value.ProperRest]
    by_cases hword : WordIn m R a
    · rw [hnext rfl hword]
      exact (does_of_safe (safe_append.2 ⟨safe_word.2 hword, safe_nothing⟩)
        ((shows_word a).append shows_nothing)).congr (iff_of_true hword trivial) False.elim False.elim
    · exact ⟨iff_of_false (fun h => hword (safe_word.1 (safe_append.1 h).1)) hword, False.elim⟩
  | cons u us =>
    have hword : (word a).Safe (Event.Good m R) := safe_word.2 hfields.head.1
    rw [RepresentsAll] at hv
    rw [WalksRest, Value.ProperRest, Value.renderRest]
    have hkind := hv.1.hasKind hos
    cases u with
    | int x =>
      rw [Represents] at hv
      rw [hv.1.2.1, WalksTail]
      exact (does_of_safe (safe_append.2 ⟨hword, safe_nothing⟩)
        ((shows_word a).append shows_nothing)).congr Iff.rfl (fun _ => trivial) fun _ => rfl
    | sexp t ws =>
      rw [Represents] at hv
      obtain ⟨⟨hobj, -, -, -, hws⟩, -⟩ := hv
      have hR' := hfields.head.2 (hobj.valid hos)
      have hcast : (cast (toData (m a))).Safe (Event.Good m R) := safe_cast.2 ⟨hR', hobj.type⟩
      rw [Value.NamedAll, Value.Named] at hnamed
      rw [Value.weightAll, Value.weight] at hn hk
      rw [hobj.not_unboxed hos]
      have hcells := printCells_spec hos hR (n := n) (k := k) hobj hR' hws hnamed.1.2 (by omega)
        (by omega)
      refine Does.read hword (shows_word _) ?_
      rw [Bool.not_false, if_pos rfl, WalksTail, Value.ProperTail, Value.renderTail]
      refine (Does.after (safe_put.2 trivial) shows_put
        (Does.read hcast (shows_cast _) hcells)).congr Iff.rfl (fun h => h.2.2) fun h => ?_
      obtain ⟨_, _, hcons⟩ := List.exists_cons_of_ne_nil (Value.renderList_ne_nil h.2.2)
      rw [hcons, List.flatMap_cons, List.append_assoc, ← Value.commas_cons]
    | pointer _ | string _ | array _ | closure _ _ =>
      have hbad := not_good_cast hkind hos hR (by rintro ⟨⟩) (by rintro ⟨⟩)
      rw [hkind.not_unboxed (by rintro ⟨⟩)]
      simp only [WalksTail, Value.ProperTail]
      refine ⟨iff_of_false (fun h => ?_) id, fun h => h.2.elim⟩
      exact hbad (safe_cast.1 (safe_append.1 (safe_append.1 (safe_append.1 h).2).2).1)

end

/-- What can be reached from a word. -/
def ReachedFrom (heap : MemoryChunk) (m : Mem) (w o : ℕ) : Prop :=
  isValidHeapPointer heap w = true ∧ Marking.Reaches (targets heap m) (w - 16) o

/-- From some fuel on, printing returns, reads only what can be reached, takes nothing but
s-expressions for such, and appends the text of the value if its lists are proper. -/
def PrintsWell (heap : MemoryChunk) (m : Mem) (v : Value) (w : ℕ) : Prop :=
  ∃ N, ∀ n ≥ N, ∃ es, printValue heap m n w = some es ∧
    (∀ e ∈ es, e.Good m (ReachedFrom heap m w)) ∧ (v.Proper → textOf es = v.render)

variable {v : Value} {w : ℕ}

theorem owned_reachedFrom (hos : Formed heap m os) (hv : Represents heap m os v w) :
    Owned heap m os (ReachedFrom heap m w) := by
  refine ⟨?_, fun o ho o' ho' => ⟨ho.1, ho.2.tail ho'⟩⟩
  rintro o ⟨hvalid, hreach⟩
  have hkind := hv.hasKind hos.placed
  refine hos.mem_of_reaches ?_ hreach
  cases v with
  | int x =>
    rw [isValidHeapPointer, show unboxed w = true from hkind] at hvalid
    cases hvalid
  | pointer a => exact absurd (hkind.2.symm.trans hvalid) Bool.false_ne_true
  | string | array | sexp | closure =>
    rw [Represents] at hv
    obtain ⟨⟨o', ho', rfl, -⟩, -⟩ := hv
    rwa [Nat.add_sub_cancel]

theorem printValue_reached (hos : Formed heap m os) (hv : Represents heap m os v w)
    (hnamed : v.Named) {n : ℕ} (hn : v.weight ≤ n) :
    Does (Event.Good m (ReachedFrom heap m w)) (printValue heap m n w)
      (Walks m (ReachedFrom heap m w) v w) v.Proper v.render :=
  printValue_spec hos.placed (owned_reachedFrom hos hv) hv (fun hvalid => ⟨hvalid, .refl⟩) hnamed hn

/-- **A value with proper lists** is printed, and nothing but its objects is read. -/
theorem printValue_of_proper (hos : Formed heap m os) (hv : Represents heap m os v w)
    (hnamed : v.Named) (hproper : v.Proper) {n : ℕ} (hn : v.weight ≤ n) :
    ∃ es, printValue heap m n w = some es ∧ (∀ e ∈ es, e.Good m (ReachedFrom heap m w)) ∧
      textOf es = v.render := by
  have hprint := printValue_reached hos hv hnamed hn
  obtain ⟨es, hes, hgood⟩ := hprint.1.2 (walks_of_proper hproper)
  exact ⟨es, hes, hgood, hprint.2 hproper es hes⟩

theorem PrintsWell.walks (h : PrintsWell heap m v w) (hos : Formed heap m os)
    (hv : Represents heap m os v w) (hnamed : v.Named) : Walks m (ReachedFrom heap m w) v w := by
  obtain ⟨N, hN⟩ := h
  obtain ⟨es, hes, hgood, -⟩ := hN (N + v.weight) (Nat.le_add_right _ _)
  exact (printValue_reached hos hv hnamed (Nat.le_add_left _ _)).1.1 ⟨es, hes, hgood⟩

/-- **Printing is safe** just when whatever is taken for a cell is an s-expression, and a cell with
one field has an object behind it that can be reached. -/
theorem printsWell_iff (hos : Formed heap m os) (hv : Represents heap m os v w) (hnamed : v.Named) :
    PrintsWell heap m v w ↔ Walks m (ReachedFrom heap m w) v w := by
  constructor
  · intro h
    exact h.walks hos hv hnamed
  · intro h
    refine ⟨v.weight, fun n hn => ?_⟩
    have hprint := printValue_reached hos hv hnamed hn
    obtain ⟨es, hes, hgood⟩ := hprint.1.2 h
    exact ⟨es, hes, hgood, fun hproper => hprint.2 hproper es hes⟩

end Print

/-! ### Two lists -/

/-- A string, a cell that has it as its second field, and a list of one element. -/
def listMem : Mem := fun a =>
  match a with
  | 1024 => 17
  | 1040 => 25185
  | 1048 | 1088 => 21
  | 1064 | 1104 => 848787
  | 1072 | 1112 => 3
  | 1080 => 1040
  | 1120 => 1
  | _ => 0

def listHeap : MemoryChunk := ⟨1024, 1128, 1128, 13⟩

def listObjects : List ℕ := [1024, 1048, 1088]

theorem listMem_formed : Formed listHeap listMem listObjects := by decide

theorem listMem_list :
    Represents listHeap listMem listObjects (.sexp 848787 [.int 1, .int 0]) 1104 := by
  simp only [Represents, RepresentsAll]
  exact ⟨⟨1088, by decide, by decide, by decide, by decide, by decide⟩, by decide⟩

theorem listMem_pair : Represents listHeap listMem listObjects
    (.sexp 848787 [.int 1, .string [97, 98]]) 1064 := by
  simp only [Represents, RepresentsAll]
  exact ⟨⟨1048, by decide, by decide, by decide, by decide, by decide⟩, by decide, by decide, by decide,
    by decide, ⟨⟨1024, by decide, by decide, by decide, by decide, by decide⟩, by decide, by decide⟩,
    trivial⟩

theorem isCons_listMem : IsCons 848787 := by decide

theorem named_cons {u u' : Value} (h : u.Named) (h' : u'.Named) :
    (Value.sexp 848787 [u, u']).Named := by
  simp only [Value.Named, Value.NamedAll]
  exact ⟨⟨"cons", by decide⟩, h, h', trivial⟩

/-- The list of one element is printed. -/
theorem printsWell_iff_list :
    PrintsWell listHeap listMem (.sexp 848787 [.int 1, .int 0]) 1104 := by
  have hint (x : ℤ) : (Value.int x).Named := by rw [Value.Named]; trivial
  refine (printsWell_iff listMem_formed listMem_list (named_cons (hint 1) (hint 0))).2 ?_
  rw [Walks, if_pos isCons_listMem]
  simp only [WalksList, Walks, WalksRest, WalksTail, and_self]

/-- The string is taken for a cell. -/
theorem not_printsWell :
    ¬ PrintsWell listHeap listMem (.sexp 848787 [.int 1, .string [97, 98]]) 1064 := by
  intro h
  have hnamed : (Value.sexp 848787 [.int 1, .string [97, 98]]).Named := by
    refine named_cons ?_ ?_ <;> rw [Value.Named] <;> trivial
  have hwalks := h.walks listMem_formed listMem_pair hnamed
  rw [Walks, if_pos isCons_listMem] at hwalks
  simp only [WalksList, WalksRest, WalksTail, and_false] at hwalks

end LamaRv.Gc
