import LamaRv.Lib.TaggedInt
import LamaRv.Lib.WrappedOrder
import LamaRv.Runtime.Values

/-!
# Comparing values (`runtime.c`)

Two values are compared by the kind, then by the tag, the constructor or the code and the length, then
by the fields.  The result of a comparison is a difference that has been boxed, so its upper bit is
lost.

* `lflatCompare`, `lcompare`: the code;
* `key`: what is compared, as a list of 63-bit words;
* `lcompare_spec`: the result has the sign of the difference at the first place where the keys differ;
* `compare_order_iff`: when the two comparisons are orders.
-/

namespace LamaRv.Gc

open Marking WordBytes TaggedInt WrappedOrder

/-! ### The code -/

/-- `LflatCompare`. -/
def lflatCompare (p q : ℕ) : ℕ :=
  if unboxed p then
    if unboxed q then box (unbox p - unbox q) else toSizeT (-1)
  else if ~~~((unboxed q).toNat : ℤ) ≠ 0 then box (p - q)
  else box 1

/-- `COMPARE_AND_RETURN`. -/
def compareAndReturn (x y : ℤ) (rest : Except Stop ℕ) : Except Stop ℕ :=
  if x ≠ y then .ok (box (x - y)) else rest

/-- The loop of `Lcompare` over the fields. -/
def compareFields (cmp : ℕ → ℕ → Except Stop ℕ) (m : Mem) (p q shift : ℕ) :
    List ℕ → Except Stop ℕ
  | [] => .ok (box 0)
  | i :: is => do
    let c ← cmp (m (p + 8 * (i + shift))) (m (q + 8 * (i + shift)))
    if c ≠ box 0 then return c else compareFields cmp m p q shift is

section Contents

variable (m : Mem) (cmp : ℕ → ℕ → Except Stop ℕ) (p q : ℕ)

/-- `Lcompare` for two strings. -/
def compareStrings : Except Stop ℕ :=
  match strcmp m p q with
  | some c => .ok (box c)
  | none => .error .fuel

/-- `Lcompare` for two closures; `cmp` is for the fields. -/
def compareClosures : Except Stop ℕ :=
  let la := len (m (toData p))
  compareAndReturn (m p) (m q) <|
    compareAndReturn la (len (m (toData q))) (compareFields cmp m p q 0 (List.range' 1 (la - 1)))

/-- `Lcompare` for two arrays. -/
def compareArrays : Except Stop ℕ :=
  let la := len (m (toData p))
  compareAndReturn la (len (m (toData q))) (compareFields cmp m p q 0 (List.range' 0 la))

/-- `Lcompare` for two s-expressions. -/
def compareSexps : Except Stop ℕ :=
  let la := len (m (toData p))
  compareAndReturn (aint (m p)) (aint (m q)) <|
    compareAndReturn la (len (m (toData q))) (compareFields cmp m p q 1 (List.range' 0 la))

/-- The `switch` of `Lcompare`, on the tag of two objects. -/
def compareContents (ta : ℕ) : Except Stop ℕ :=
  switchTag ta (compareStrings m p q) (compareClosures m cmp p q) (compareArrays m cmp p q)
    (compareSexps m cmp p q)
    (.error (.failure ("invalid data_header " ++ toString ta ++ " in compare *****\n")))

end Contents

/-- `Lcompare`, with some fuel. -/
def lcompare (heap : MemoryChunk) (m : Mem) : ℕ → ℕ → ℕ → Except Stop ℕ
  | 0, _, _ => .error .fuel
  | n + 1, p, q =>
    if p = q then .ok (box 0)
    else if unboxed p then
      if unboxed q then .ok (box (unbox p - unbox q)) else .ok (box (-1))
    else if unboxed q then .ok (box 1)
    else if isValidHeapPointer heap p then
      if isValidHeapPointer heap q then
        compareAndReturn (tag (m (toData p))) (tag (m (toData q)))
          (compareContents m (lcompare heap m n) p q (tag (m (toData p))))
      else .ok (box (-1))
    else if isValidHeapPointer heap q then .ok (box 1)
    else .ok (box (p - q))

/-! ### Keys -/

/-- A number as a 63-bit word. -/
def word63 (x : ℤ) : Int63 := BitVec.ofInt 63 x

/-- The part of a key that tells the kinds apart. -/
def kindKey : Kind → List Int63
  | .int => [word63 0]
  | .pointer => [word63 2]
  | .object t => [word63 1, word63 t.tag]

namespace Value

mutual

/-- What a comparison looks at, in order. -/
def key : Value → List Int63
  | .int n => kindKey .int ++ [word63 n]
  | .pointer a => kindKey .pointer ++ [word63 a]
  | .string bytes => kindKey (.object .string) ++ (text bytes ++ [0]).map fun b : ℕ => word63 b
  | .array vs => kindKey (.object .array) ++ word63 vs.length :: keyAll vs
  | .sexp t vs => kindKey (.object .sexp) ++ word63 t :: word63 vs.length :: keyAll vs
  | .closure code vs =>
    kindKey (.object .closure) ++ word63 code :: word63 (vs.length + 1) :: keyAll vs

def keyAll : List Value → List Int63
  | [] => []
  | v :: vs => key v ++ keyAll vs

end

/-- A key begins with the kind. -/
theorem kindKey_prefix (v : Value) : ∃ k, v.key = kindKey v.kind ++ k := by
  cases v <;> exact ⟨_, by rw [key, kind]⟩

end Value

/-! ### Boxed differences -/

section Differences

variable {x y z : ℤ} {k k' s t : List Int63} {r : Except Stop ℕ}

theorem aint_box (z : ℤ) : aint (box z) = (2 * z + 1).bmod (2 ^ 64) := by
  have hcast : (box z : ℤ) = (2 * z + 1) % (2 ^ 64 : ℕ) := by
    rw [box, toSizeT, Int.toNat_of_nonneg (Int.emod_nonneg _ (by norm_num))]
    push_cast
    rfl
  unfold aint
  rw [hcast]
  exact Int.emod_bmod _ _

/-- What boxing keeps. -/
theorem unbox_box_int (z : ℤ) : unbox (box z) = (word63 z).toInt := by
  have hsplit : 2 * z + 1 = 2 * z.bmod (2 ^ 63) + 1 + (2 ^ 64 : ℕ) * z.bdiv (2 ^ 63) := by
    rw [Int.bmod_eq_self_sub_mul_bdiv]
    push_cast
    ring
  have hbounds := toInt_bounds (word63 z)
  rw [word63, BitVec.toInt_ofInt] at hbounds ⊢
  have hword : (2 * z + 1).bmod (2 ^ 64) = 2 * z.bmod (2 ^ 63) + 1 := by
    rw [hsplit, Int.add_mul_bmod_self_left]
    exact Int.bmod_eq_of_le (by omega) (by omega)
  rw [unbox, aint_box, hword]
  omega

theorem word63_sub (x y : ℤ) : word63 (x - y) = word63 x - word63 y := by
  rw [word63, word63, word63, Int.sub_eq_add_neg, BitVec.ofInt_add, BitVec.ofInt_neg,
    BitVec.sub_eq_add_neg]

/-- Small numbers are not confused. -/
theorem word63_ne (h : x ≠ y) (h₁ : -2 ^ 63 < x - y) (h₂ : x - y < 2 ^ 63) : word63 x ≠ word63 y := by
  intro heq
  have hmod := congrArg BitVec.toInt heq
  rw [word63, word63, BitVec.toInt_ofInt, BitVec.toInt_ofInt, Int.bmod_eq_self_sub_mul_bdiv,
    Int.bmod_eq_self_sub_mul_bdiv] at hmod
  push_cast at hmod
  omega

/-- A comparison returns a number that decides between two keys. -/
def Answers (r : Except Stop ℕ) (k k' : List Int63) : Prop :=
  ∃ z, r = .ok (box z) ∧ Decides (unbox (box z)) k k'

theorem Answers.append_left (h : Answers r s t) (k : List Int63) : Answers r (k ++ s) (k ++ t) :=
  h.imp fun _ hz => ⟨hz.1, hz.2.append_left k⟩

/-- A boxed difference of numbers that are not confused. -/
theorem answers_sub_of_ne (h : word63 x ≠ word63 y) (s t : List Int63) :
    Answers (.ok (box (x - y))) (word63 x :: s) (word63 y :: t) := by
  refine ⟨x - y, rfl, .differ [] s t h ?_⟩
  rw [unbox_box_int, word63_sub, compareWord]

/-- A boxed difference, at the end of a comparison. -/
theorem answers_sub (x y : ℤ) : Answers (.ok (box (x - y))) [word63 x] [word63 y] := by
  by_cases h : word63 x = word63 y
  · refine ⟨x - y, rfl, ?_⟩
    rw [h]
    refine .same _ ?_
    rw [unbox_box_int, word63_sub, h, BitVec.sub_self, BitVec.toInt_zero]
  · exact answers_sub_of_ne h [] []

/-- `COMPARE_AND_RETURN` of numbers that are not confused. -/
theorem answers_compareAndReturn (h : x ≠ y → word63 x ≠ word63 y) (hrest : x = y → Answers r s t) :
    Answers (compareAndReturn x y r) (word63 x :: s) (word63 y :: t) := by
  by_cases hxy : x = y
  · obtain rfl := hxy
    rw [compareAndReturn, if_neg (not_not_intro rfl)]
    exact (hrest rfl).append_left [word63 x]
  · rw [compareAndReturn, if_pos hxy]
    exact answers_sub_of_ne (h hxy) s t

/-- A boxed number with the sign of a difference. -/
theorem answers_of_sign {a b : Int63} (hne : a ≠ b) (hz : (word63 z).toInt.sign = compareWord a b)
    (s t : List Int63) : Answers (.ok (box z)) (a :: s) (b :: t) :=
  ⟨z, rfl, .differ [] s t hne (by rw [unbox_box_int, hz])⟩

theorem box_eq_box_zero_iff (z : ℤ) : box z = box 0 ↔ unbox (box z) = 0 := by
  have hzero : unbox (box 0) = 0 := by rw [unbox_box_int]; rfl
  constructor
  · intro h
    rw [h, hzero]
  · intro h
    rw [unbox_box_int, word63, BitVec.toInt_ofInt, Int.bmod_eq_self_sub_mul_bdiv] at h
    push_cast at h
    unfold box toSizeT
    omega

/-- A comparison, and if it finds no difference another one. -/
theorem Answers.then {r' : Except Stop ℕ} (h : Answers r k k') (h' : k = k' → Answers r' s t) :
    Answers (do
      let c ← r
      if c ≠ box 0 then return c else r') (k ++ s) (k' ++ t) := by
  obtain ⟨z, rfl, hdec⟩ := h
  by_cases hz : box z = box 0
  · have heq := hdec.eq_zero_iff.1 ((box_eq_box_zero_iff z).1 hz)
    obtain ⟨z', rfl, hdec'⟩ := h' heq
    obtain rfl := heq
    exact ⟨z', by simp [hz, bind, Except.bind], hdec'.append_left k⟩
  · exact ⟨z, by simp [hz, bind, Except.bind, pure, Except.pure],
      hdec.append_right (fun h0 => hz ((box_eq_box_zero_iff z).2 h0)) s t⟩

end Differences

/-! ### The result of a comparison -/

section Compare

variable {heap : MemoryChunk} {m : Mem} {os : List ℕ} {p q n i shift : ℕ} {v w : Value}

theorem LamaType.tag_injective {t t' : LamaType} (h : t.tag = t'.tag) : t = t' := by
  cases t <;> cases t' <;> first | rfl | cases h

/-- Values of different kinds. -/
theorem answers_of_kind_ne {k k' : Kind} (hp : HasKind heap m k p) (hq : HasKind heap m k' q)
    (hne : k ≠ k') (s t : List Int63) :
    Answers (lcompare heap m (n + 1) p q) (kindKey k ++ s) (kindKey k' ++ t) := by
  have hpq : p ≠ q := by
    rintro rfl
    exact hne (hp.unique hq)
  rw [lcompare, if_neg hpq]
  cases k with
  | int =>
    rw [HasKind] at hp
    cases k' with
    | int => exact absurd rfl hne
    | pointer =>
      rw [HasKind] at hq
      simp only [hp, hq.1, if_true, Bool.false_eq_true, if_false]
      exact answers_of_sign (by decide) (by decide) s t
    | object t' =>
      rw [HasKind] at hq
      simp only [hp, hq.1, if_true, Bool.false_eq_true, if_false]
      exact answers_of_sign (by decide) (by decide) s _
  | pointer =>
    rw [HasKind] at hp
    cases k' with
    | int =>
      rw [HasKind] at hq
      simp only [hp.1, hq, if_true, Bool.false_eq_true, if_false]
      exact answers_of_sign (by decide) (by decide) s t
    | pointer => exact absurd rfl hne
    | object t' =>
      rw [HasKind] at hq
      simp only [hp.1, hp.2, hq.1, hq.2.1, if_true, Bool.false_eq_true, if_false]
      exact answers_of_sign (by decide) (by decide) s _
  | object t' =>
    rw [HasKind] at hp
    cases k' with
    | int =>
      rw [HasKind] at hq
      simp only [hp.1, hq, if_true, Bool.false_eq_true, if_false]
      exact answers_of_sign (by decide) (by decide) _ t
    | pointer =>
      rw [HasKind] at hq
      simp only [hp.1, hp.2.1, hq.1, hq.2, if_true, Bool.false_eq_true, if_false]
      exact answers_of_sign (by decide) (by decide) _ t
    | object t'' =>
      rw [HasKind] at hq
      have htag : (t'.tag : ℤ) ≠ t''.tag := fun heq =>
        hne (congrArg Kind.object (LamaType.tag_injective (by exact_mod_cast heq)))
      have h₁ := t'.tag_lt
      have h₂ := t''.tag_lt
      simp only [hp.1, hp.2.1, hq.1, hq.2.1, if_true, Bool.false_eq_true, if_false,
        tag_of_type hp.2.2, tag_of_type hq.2.2]
      refine Answers.append_left ?_ [word63 1]
      exact answers_compareAndReturn (fun _ => word63_ne htag (by omega) (by omega))
        fun heq => absurd heq htag

/-- `strcmp` compares the bytes before the zero and the zero. -/
theorem answers_strcmp {xs ys : List ℕ} (hx : TextAt m xs p) (hy : TextAt m ys q)
    (hlen : xs.length < 2 ^ 64) (hxs : ∀ b ∈ xs, b < 256) (hys : ∀ b ∈ ys, b < 256) :
    Answers (compareStrings m p q) ((xs ++ [0]).map fun b : ℕ => word63 b) ((ys ++ [0]).map fun b : ℕ => word63 b) := by
  obtain ⟨c, hc, h⟩ := strcmp_spec hx hy hlen
  rw [compareStrings, hc]
  rcases h with ⟨rfl, rfl⟩ | ⟨pre, a, b, s, t, hab, h₁, h₂, rfl⟩
  · exact ⟨0, rfl, .same _ ((box_eq_box_zero_iff 0).1 rfl)⟩
  · have ha : a ∈ xs ++ [0] := by simp [h₁]
    have hb : b ∈ ys ++ [0] := by simp [h₂]
    have hbyte {n : ℕ} {ns : List ℕ} (hns : ∀ b ∈ ns, b < 256) (hn : n ∈ ns ++ [0]) : n < 256 := by
      rcases List.mem_append.1 hn with hn | hn
      · exact hns n hn
      · rw [List.mem_singleton.1 hn]
        decide
    have ha := hbyte hxs ha
    have hb := hbyte hys hb
    rw [h₁, h₂, List.map_append, List.map_append]
    refine Answers.append_left ?_ _
    exact answers_sub_of_ne (word63_ne (by omega) (by omega) (by omega)) _ _

theorem text_lt {bytes : List ℕ} {w : ℕ} (h : stringBytes m w = bytes) :
    ∀ b ∈ Value.text bytes, b < 256 := by
  intro b hb
  have hb := (List.takeWhile_prefix _).subset hb
  rw [← h] at hb
  obtain ⟨i, -, rfl⟩ := List.mem_map.1 hb
  exact byteAt_lt

/-- The kind is compared first. -/
theorem answers_of_kind_eq {t : LamaType} {s s' : List Int63} (hp : HasKind heap m (.object t) p)
    (hq : HasKind heap m (.object t) q)
    (h : Answers (compareContents m (lcompare heap m n) p q t.tag) s s') (heq : p = q → s = s') :
    Answers (lcompare heap m (n + 1) p q) (kindKey (.object t) ++ s) (kindKey (.object t) ++ s') := by
  refine Answers.append_left ?_ _
  rw [lcompare]
  by_cases hpq : p = q
  · rw [if_pos hpq, ← heq hpq]
    exact ⟨0, rfl, .same _ ((box_eq_box_zero_iff 0).1 rfl)⟩
  · rw [HasKind] at hp hq
    simp only [if_neg hpq, hp.1, hp.2.1, hq.1, hq.2.1, if_true, Bool.false_eq_true, if_false,
      tag_of_type hp.2.2, tag_of_type hq.2.2, compareAndReturn, ne_eq, not_true]
    exact h

/-- The lengths of two objects, and then their fields. -/
theorem answers_length {t : LamaType} {r : Except Stop ℕ} {l l' : ℕ} {s s' : List Int63}
    (hp : ObjectAt m os t l p) (hq : ObjectAt m os t l' q) (h : l = l' → Answers r s s') :
    Answers (compareAndReturn (len (m (toData p))) (len (m (toData q))) r) (word63 l :: s)
      (word63 l' :: s') := by
  have h₁ := hp.length_lt
  have h₂ := hq.length_lt
  rw [hp.len_eq, hq.len_eq]
  exact answers_compareAndReturn (fun hne => word63_ne hne (by omega) (by omega))
    fun heq => h (by exact_mod_cast heq)

mutual

/-- **A comparison** of two values ends with the sign of the difference at the first place where their
keys differ. -/
theorem lcompare_spec (hos : Placed heap m os) {v w : Value} {p q n : ℕ}
    (hv : Represents heap m os v p) (hw : Represents heap m os w q) (hn : v.weight ≤ n) :
    Answers (lcompare heap m n p q) v.key w.key := by
  obtain ⟨n, rfl⟩ := Nat.exists_eq_add_one.2 (v.weight_pos.trans_le hn)
  have hp := hv.hasKind hos
  have hq := hw.hasKind hos
  have hkey : p = q → v.key = w.key := by
    rintro rfl
    rw [hv.unique hos hw]
  by_cases hkind : v.kind = w.kind
  · cases v with
    | int x =>
      cases w <;> simp only [Value.kind, reduceCtorEq] at hkind
      rw [Represents] at hv hw
      rw [Value.key, Value.key]
      refine Answers.append_left ?_ _
      rw [lcompare, hv.2.1, hw.2.1, hv.2.2, hw.2.2, if_pos rfl, if_pos rfl]
      by_cases hpq : p = q
      · have hxy : x = _ := hv.2.2.symm.trans ((congrArg unbox hpq).trans hw.2.2)
        rw [if_pos hpq, ← hxy, ← sub_self x]
        exact answers_sub x x
      · rw [if_neg hpq]
        exact answers_sub x _
    | pointer a =>
      cases w <;> simp only [Value.kind, reduceCtorEq] at hkind
      rw [Represents] at hv hw
      rw [Value.key, Value.key]
      refine Answers.append_left ?_ _
      simp only [lcompare, hv.2.1, hv.2.2.1, hw.2.1, hw.2.2.1, Bool.false_eq_true, if_false]
      rw [← hv.2.2.2, ← hw.2.2.2]
      by_cases hpq : p = q
      · rw [if_pos hpq, ← hpq, ← sub_self (p : ℤ)]
        exact answers_sub p p
      · rw [if_neg hpq]
        exact answers_sub p q
    | string bytes =>
      cases w <;> simp only [Value.kind, reduceCtorEq, Kind.object.injEq] at hkind
      rw [Represents] at hv hw
      refine answers_of_kind_eq hp hq ?_ fun h => List.append_cancel_left (hkey h)
      have hlen := hv.1.length_lt
      have htext := text_length_le bytes
      rw [compareContents, switchTag_string]
      exact answers_strcmp (textAt_of_bytes hv.1 hv.2.1 hv.2.2) (textAt_of_bytes hw.1 hw.2.1 hw.2.2)
        (by omega) (text_lt hv.2.1) (text_lt hw.2.1)
    | array vs =>
      cases w <;> simp only [Value.kind, reduceCtorEq, Kind.object.injEq] at hkind
      rw [Represents] at hv hw
      rw [Value.weight] at hn
      refine answers_of_kind_eq hp hq ?_ fun h => List.append_cancel_left (hkey h)
      rw [compareContents, switchTag_array]
      refine answers_length hv.1 hw.1 fun hlen => ?_
      rw [hv.1.len_eq]
      exact compareFields_spec hos hlen hv.2 hw.2 (by omega)
    | sexp t vs =>
      cases w <;> simp only [Value.kind, reduceCtorEq, Kind.object.injEq] at hkind
      rw [Represents] at hv hw
      rw [Value.weight] at hn
      refine answers_of_kind_eq hp hq ?_ fun h => List.append_cancel_left (hkey h)
      rw [compareContents, switchTag_sexp]
      obtain ⟨hv₁, rfl, ht₁, ht₂, hv⟩ := hv
      obtain ⟨hw₁, rfl, ht₁', ht₂', hw⟩ := hw
      refine answers_compareAndReturn (fun hne => word63_ne hne (by omega) (by omega)) fun _ => ?_
      refine answers_length hv₁ hw₁ fun hlen => ?_
      rw [hv₁.len_eq]
      exact compareFields_spec hos hlen hv hw (by omega)
    | closure code vs =>
      cases w <;> simp only [Value.kind, reduceCtorEq, Kind.object.injEq] at hkind
      rw [Represents] at hv hw
      rw [Value.weight] at hn
      refine answers_of_kind_eq hp hq ?_ fun h => List.append_cancel_left (hkey h)
      rw [compareContents, switchTag_closure]
      obtain ⟨hv₁, rfl, hc₁, hv⟩ := hv
      obtain ⟨hw₁, rfl, hc₁', hw⟩ := hw
      refine answers_compareAndReturn (fun hne => word63_ne hne (by omega) (by omega)) fun _ => ?_
      refine answers_length hv₁ hw₁ fun hlen => ?_
      rw [hv₁.len_eq]
      exact compareFields_spec hos (Nat.succ.inj hlen) hv hw (by omega)
  · obtain ⟨k, hk⟩ := v.kindKey_prefix
    obtain ⟨k', hk'⟩ := w.kindKey_prefix
    rw [hk, hk']
    exact answers_of_kind_ne hp hq hkind k k'

/-- The fields are compared one after the other. -/
theorem compareFields_spec (hos : Placed heap m os) {vs ws : List Value} {p q n i shift : ℕ}
    (hlen : vs.length = ws.length) (hv : RepresentsAll heap m os vs (p + 8 * (i + shift)))
    (hw : RepresentsAll heap m os ws (q + 8 * (i + shift))) (hn : Value.weightAll vs ≤ n) :
    Answers (compareFields (lcompare heap m n) m p q shift (List.range' i vs.length))
      (Value.keyAll vs) (Value.keyAll ws) := by
  cases vs with
  | nil =>
    obtain rfl := List.length_eq_zero_iff.1 hlen.symm
    exact ⟨0, rfl, .same _ ((box_eq_box_zero_iff 0).1 rfl)⟩
  | cons v vs =>
    cases ws with
    | nil => cases hlen
    | cons w ws =>
      rw [RepresentsAll] at hv hw
      rw [Value.weightAll] at hn
      have hnext (a : ℕ) : a + 8 * (i + shift) + 8 = a + 8 * (i + 1 + shift) := by omega
      rw [hnext] at hv hw
      rw [List.length_cons, List.range'_succ, compareFields, Value.keyAll, Value.keyAll]
      exact (lcompare_spec hos hv.1 hw.1 (by omega)).then fun _ =>
        compareFields_spec hos (Nat.succ.inj hlen) hv.2 hw.2 (by omega)

end

end Compare

/-! ### Orders -/

/-- The results of a comparison have the signs of a total preorder on a set of words: a word compares
as zero to those that stand for the same, and integers come before pointers. -/
structure Orders (same : ℕ → ℕ → Prop) (S : Set ℕ) (cmp : ℕ → ℕ → Option ℤ) : Prop where
  total : ∀ x ∈ S, ∀ y ∈ S, (cmp x y).isSome
  preorder : PreorderOn (fun x y => ((cmp x y).getD 0).sign) S
  zero : ∀ x ∈ S, ∀ y ∈ S, same x y → cmp x y = some 0
  unboxed_lt : ∀ x ∈ S, ∀ y ∈ S, unboxed x = true → unboxed y = false → ∃ c < 0, cmp x y = some c

/-- Two words stand for the same value. -/
def SameValue (heap : MemoryChunk) (m : Mem) (os : List ℕ) (x y : ℕ) : Prop :=
  ∃ v, Represents heap m os v x ∧ Represents heap m os v y

/-- The integer that `Lcompare` returns, if it does. -/
def compareResult (heap : MemoryChunk) (m : Mem) (n x y : ℕ) : Option ℤ :=
  (lcompare heap m n x y).toOption.map unbox

/-- The integer that `LflatCompare` returns. -/
def flatResult (x y : ℕ) : Option ℤ := some (unbox (lflatCompare x y))

/-- The integers and the pointers of a set each lie in one half of the circle, and a pointer is less
than half of the circle after each word of an integer. -/
structure FlatAligned (S : Set ℕ) : Prop where
  ints : InHalf ((fun w => word63 (unbox w)) '' {w | w ∈ S ∧ unboxed w = true})
  pointers : InHalf ((fun w : ℕ => word63 w) '' {w | w ∈ S ∧ unboxed w = false})
  after : ∀ x ∈ S, ∀ y ∈ S, unboxed x = true → unboxed y = false → 0 < (word63 ((y : ℤ) - x)).toInt

section Orders

variable {heap : MemoryChunk} {m : Mem} {os : List ℕ} {p q r n : ℕ} {v w v₁ v₂ v₃ : Value} {S : Set ℕ}

theorem compareResult_spec (hos : Placed heap m os) (hv : Represents heap m os v p)
    (hw : Represents heap m os w q) (hn : v.weight ≤ n) :
    ∃ c, compareResult heap m n p q = some c ∧ Decides c v.key w.key := by
  obtain ⟨z, hz, hdec⟩ := lcompare_spec hos hv hw hn
  exact ⟨_, by rw [compareResult, hz]; rfl, hdec⟩

theorem Represents.kind_of_unboxed (h : Represents heap m os v p) (hos : Placed heap m os) :
    unboxed p = true ↔ v.kind = .int := by
  have hkind := h.hasKind hos
  cases hk : v.kind <;> rw [hk, HasKind] at hkind <;> simp [hkind]

/-- An integer compares as less than a pointer. -/
theorem compareLex_int_lt (hv : v.kind = .int) (hw : w.kind ≠ .int) : compareLex v.key w.key = -1 := by
  obtain ⟨k, hk⟩ := v.kindKey_prefix
  obtain ⟨k', hk'⟩ := w.kindKey_prefix
  rw [hk, hk', hv]
  cases hkind : w.kind with
  | int => exact absurd hkind hw
  | pointer => exact compareLex_of_ne (by decide)
  | object t => exact compareLex_of_ne (x := word63 0) (y := word63 1) (by decide)

/-- **`Lcompare`** on some values. -/
theorem orders_compareResult_iff {T : Set (List Int63)} (hos : Placed heap m os)
    (hS : ∀ x ∈ S, ∃ v : Value, v.key ∈ T ∧ Represents heap m os v x ∧ v.weight ≤ n)
    (hT : ∀ k ∈ T, ∃ x ∈ S, ∃ v : Value, v.key = k ∧ Represents heap m os v x ∧ v.weight ≤ n) :
    Orders (SameValue heap m os) S (compareResult heap m n) ↔ Aligned T := by
  have hpre : PreorderOn (fun x y => ((compareResult heap m n x y).getD 0).sign) S ↔ Aligned T := by
    rw [← preorderOn_compareLex]
    refine preorderOn_iff_of_rel
      (R := fun x k => ∃ v : Value, v.key = k ∧ Represents heap m os v x ∧ v.weight ≤ n) ?_ hT ?_
    · intro x hx
      obtain ⟨v, hkey, hv⟩ := hS x hx
      exact ⟨v.key, hkey, v, rfl, hv⟩
    · rintro x _ y _ ⟨v, rfl, hv, hn⟩ ⟨w, rfl, hw, -⟩
      obtain ⟨c, hc, hdec⟩ := compareResult_spec hos hv hw hn
      rw [hc, Option.getD_some, hdec.sign]
  refine ⟨fun h => hpre.1 h.preorder, fun h => ⟨?_, hpre.2 h, ?_, ?_⟩⟩
  · intro x hx y hy
    obtain ⟨v, -, hv, hn⟩ := hS x hx
    obtain ⟨w, -, hw, -⟩ := hS y hy
    obtain ⟨c, hc, -⟩ := compareResult_spec hos hv hw hn
    rw [hc]
    rfl
  · rintro x hx y hy ⟨v, hv, hv'⟩
    obtain ⟨w, -, hw, hn⟩ := hS x hx
    obtain rfl := hv.unique hos hw
    obtain ⟨c, hc, hdec⟩ := compareResult_spec hos hv hv' hn
    rw [hc, hdec.eq_zero_iff.2 rfl]
  · intro x hx y hy hxu hyu
    obtain ⟨v, -, hv, hn⟩ := hS x hx
    obtain ⟨w, -, hw, -⟩ := hS y hy
    obtain ⟨c, hc, hdec⟩ := compareResult_spec hos hv hw hn
    have hvk := (hv.kind_of_unboxed hos).1 hxu
    have hwk : w.kind ≠ .int := fun h => by
      rw [(hw.kind_of_unboxed hos).2 h] at hyu
      cases hyu
    have hsign := hdec.sign
    rw [compareLex_int_lt hvk hwk] at hsign
    exact ⟨c, Int.sign_eq_neg_one_iff_neg.1 hsign, hc⟩

/-- The signs of `LflatCompare`. -/
theorem flatResult_sign (x y : ℕ) : ((flatResult x y).getD 0).sign =
    if unboxed x = true then
      if unboxed y = true then compareWord (word63 (unbox x)) (word63 (unbox y)) else -1
    else compareWord (word63 x) (word63 y) := by
  rw [flatResult, Option.getD_some, lflatCompare]
  by_cases hx : unboxed x = true
  · rw [if_pos hx, if_pos hx]
    by_cases hy : unboxed y = true
    · rw [if_pos hy, if_pos hy, unbox_box_int, word63_sub, compareWord]
    · rw [if_neg hy, if_neg hy]
      decide
  · have hnot : ~~~((unboxed y).toNat : ℤ) ≠ 0 := by
      cases unboxed y <;> decide
    rw [if_neg hx, if_neg hx, if_pos hnot, unbox_box_int, word63_sub, compareWord]

/-- **`LflatCompare`** on some words. -/
theorem orders_flatResult_iff : Orders Eq S flatResult ↔ FlatAligned S := by
  have hunion : S = {w | w ∈ S ∧ unboxed w = true} ∪ {w | w ∈ S ∧ unboxed w = false} := by
    ext w
    cases h : unboxed w <;> simp [h]
  have hints : PreorderOn (fun x y => ((flatResult x y).getD 0).sign) {w | w ∈ S ∧ unboxed w = true} ↔
      InHalf ((fun w => word63 (unbox w)) '' {w | w ∈ S ∧ unboxed w = true}) := by
    rw [← preorderOn_compareWord]
    refine preorderOn_iff_of_rel (R := fun x a => unboxed x = true ∧ word63 (unbox x) = a) ?_ ?_ ?_
    · intro x hx
      exact ⟨_, ⟨x, hx, rfl⟩, hx.2, rfl⟩
    · rintro _ ⟨x, hx, rfl⟩
      exact ⟨x, hx, hx.2, rfl⟩
    · rintro x _ y _ ⟨hx, rfl⟩ ⟨hy, rfl⟩
      rw [flatResult_sign, if_pos hx, if_pos hy]
  have hpointers : PreorderOn (fun x y => ((flatResult x y).getD 0).sign)
      {w | w ∈ S ∧ unboxed w = false} ↔
      InHalf ((fun w : ℕ => word63 w) '' {w | w ∈ S ∧ unboxed w = false}) := by
    rw [← preorderOn_compareWord]
    refine preorderOn_iff_of_rel (R := fun (x : ℕ) a => unboxed x = false ∧ word63 x = a) ?_ ?_ ?_
    · intro x hx
      exact ⟨_, ⟨x, hx, rfl⟩, hx.2, rfl⟩
    · rintro _ ⟨x, hx, rfl⟩
      exact ⟨x, hx, hx.2, rfl⟩
    · rintro x _ y _ ⟨hx, rfl⟩ ⟨-, rfl⟩
      rw [flatResult_sign, hx, if_neg Bool.false_ne_true]
  have hlt : ∀ x ∈ {w | w ∈ S ∧ unboxed w = true}, ∀ y ∈ {w | w ∈ S ∧ unboxed w = false},
      ((flatResult x y).getD 0).sign = -1 := by
    rintro x ⟨-, hx⟩ y ⟨-, hy⟩
    rw [flatResult_sign, if_pos hx, hy, if_neg Bool.false_ne_true]
  have hgt {x y : ℕ} (hy : unboxed y = false) :
      ((flatResult y x).getD 0).sign = 1 ↔ 0 < (word63 ((y : ℤ) - x)).toInt := by
    rw [flatResult_sign, hy, if_neg Bool.false_ne_true, compareWord, ← word63_sub,
      Int.sign_eq_one_iff_pos]
  have hpre : PreorderOn (fun x y => ((flatResult x y).getD 0).sign) S ↔ FlatAligned S := by
    have hsplit := preorderOn_union_iff (S := {w | w ∈ S ∧ unboxed w = true})
      (U := {w | w ∈ S ∧ unboxed w = false}) hlt
    rw [← hunion, hints, hpointers] at hsplit
    rw [hsplit]
    constructor
    · rintro ⟨h₁, h₂, h₃⟩
      exact ⟨h₁, h₂, fun x hx y hy hxu hyu => (hgt hyu).1 (h₃ x ⟨hx, hxu⟩ y ⟨hy, hyu⟩)⟩
    · rintro ⟨h₁, h₂, h₃⟩
      exact ⟨h₁, h₂, fun x hx y hy => (hgt hy.2).2 (h₃ x hx.1 y hy.1 hx.2 hy.2)⟩
  refine ⟨fun h => hpre.1 h.preorder, fun h => ⟨fun _ _ _ _ => rfl, hpre.2 h, ?_, ?_⟩⟩
  · rintro x hx _ - rfl
    have hself := (hpre.2 h).self hx
    have hzero := Int.sign_eq_zero_iff_zero.1 hself
    rw [flatResult, Option.getD_some] at hzero
    rw [flatResult, hzero]
  · intro x hx y hy hxu hyu
    have hsign := hlt x ⟨hx, hxu⟩ y ⟨hy, hyu⟩
    rw [flatResult, Option.getD_some] at hsign
    exact ⟨_, Int.sign_eq_neg_one_iff_neg.1 hsign, by rw [flatResult]⟩

/-- **When the comparisons are orders** on three values: the words at the first place where their keys
differ lie in one half of the circle, and so do the words that the flat comparison subtracts. -/
theorem compare_order_iff (hos : Placed heap m os) (h₁ : Represents heap m os v₁ p)
    (h₂ : Represents heap m os v₂ q) (h₃ : Represents heap m os v₃ r) :
    ((∃ n, ∀ k ≥ n, Orders (SameValue heap m os) {p, q, r} (compareResult heap m k)) ↔
      Aligned {v₁.key, v₂.key, v₃.key}) ∧
    (Orders Eq {p, q, r} flatResult ↔ FlatAligned {p, q, r}) := by
  refine ⟨?_, orders_flatResult_iff⟩
  have hiff : ∀ k ≥ v₁.weight + v₂.weight + v₃.weight,
      (Orders (SameValue heap m os) {p, q, r} (compareResult heap m k) ↔
        Aligned {v₁.key, v₂.key, v₃.key}) := by
    intro k hk
    refine orders_compareResult_iff hos ?_ ?_
    · rintro x (rfl | rfl | rfl)
      · exact ⟨v₁, .inl rfl, h₁, by omega⟩
      · exact ⟨v₂, .inr (.inl rfl), h₂, by omega⟩
      · exact ⟨v₃, .inr (.inr rfl), h₃, by omega⟩
    · rintro x (rfl | rfl | rfl)
      · exact ⟨p, .inl rfl, v₁, rfl, h₁, by omega⟩
      · exact ⟨q, .inr (.inl rfl), v₂, rfl, h₂, by omega⟩
      · exact ⟨r, .inr (.inr rfl), v₃, rfl, h₃, by omega⟩
  constructor
  · rintro ⟨n, hn⟩
    exact (hiff _ (Nat.le_add_left _ n)).1 (hn _ (Nat.le_add_right n _))
  · intro h
    exact ⟨_, fun k hk => (hiff k hk).2 h⟩

end Orders

/-! ### An integer and two strings -/

theorem stringMem_placed : Placed stringState.heap stringMem [1024, 1048] := ⟨by decide, by decide⟩

/-- The number three and the two strings. -/
theorem compare_order_iff_small :
    (∃ n, ∀ k ≥ n, Orders (SameValue stringState.heap stringMem [1024, 1048]) {7, 1040, 1064}
      (compareResult stringState.heap stringMem k)) ∧ Orders Eq {7, 1040, 1064} flatResult := by
  have h₁ : Represents stringState.heap stringMem [1024, 1048] (.int 3) 7 :=
    represents_int (by decide) (by decide) (by decide)
  have h₂ : Represents stringState.heap stringMem [1024, 1048] (.string [97, 98]) 1040 :=
    represents_string ⟨1024, by decide, by decide, by decide, by decide, by decide⟩ (by decide)
      (by decide)
  have h₃ : Represents stringState.heap stringMem [1024, 1048] (.string [0, 98]) 1064 :=
    represents_string ⟨1048, by decide, by decide, by decide, by decide, by decide⟩ (by decide)
      (by decide)
  have hspec := compare_order_iff stringMem_placed h₁ h₂ h₃
  refine ⟨hspec.1.2 (aligned_of_lt ?_), hspec.2.2 ⟨⟨0, ?_⟩, ⟨0, ?_⟩, ?_⟩⟩
  · rintro k (rfl | rfl | rfl) <;> rw [Value.key] <;>
      simp [kindKey, Value.text, LamaType.tag, word63]
  · rintro _ ⟨w, ⟨rfl | rfl | rfl, hw⟩, rfl⟩
    · decide
    all_goals exact absurd hw (by decide)
  · rintro _ ⟨w, ⟨rfl | rfl | rfl, hw⟩, rfl⟩
    · exact absurd hw (by decide)
    all_goals decide
  · rintro x (rfl | rfl | rfl) y (rfl | rfl | rfl) hx hy <;>
      first | exact absurd hx (by decide) | exact absurd hy (by decide) | decide

/-- Two integers with a distance of half of the circle, and a pointer with a larger integer. -/
theorem not_compare_order :
    ¬ (∃ n, ∀ k ≥ n, Orders (SameValue stringState.heap stringMem [1024, 1048])
      {2 ^ 62 + 1, 2 ^ 64 - 2 ^ 62 + 1, 7} (compareResult stringState.heap stringMem k)) ∧
    ¬ Orders Eq {2001, 1040, 7} flatResult := by
  have h₁ : Represents stringState.heap stringMem [1024, 1048] (.int (2 ^ 61)) (2 ^ 62 + 1) :=
    represents_int (by decide) (by decide) (by decide)
  have h₂ : Represents stringState.heap stringMem [1024, 1048] (.int (-2 ^ 61))
      (2 ^ 64 - 2 ^ 62 + 1) := represents_int (by decide) (by decide) (by decide)
  constructor
  · rintro ⟨n, hn⟩
    have hpre := (hn (n + 1) (by omega)).preorder
    obtain ⟨c, hc, hdec⟩ := compareResult_spec (n := n + 1) stringMem_placed h₁ h₂
      (by rw [Value.weight]; omega)
    obtain ⟨c', hc', hdec'⟩ := compareResult_spec (n := n + 1) stringMem_placed h₂ h₁
      (by rw [Value.weight]; omega)
    have hsign := hpre.antisymm _ (.inl rfl) _ (.inr (.inl rfl))
    rw [hc, hc', Option.getD_some, Option.getD_some, hdec.sign, hdec'.sign] at hsign
    exact absurd hsign (by rw [Value.key, Value.key]; decide)
  · intro h
    exact absurd ((orders_flatResult_iff.1 h).after 2001 (.inl rfl) 1040 (.inr (.inl rfl)) rfl rfl)
      (by decide)

end LamaRv.Gc
