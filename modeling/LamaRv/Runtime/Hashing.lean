import LamaRv.Runtime.Comparison

/-!
# Hashing values (`runtime.c`)

The hash of a value is made of the words that one meets in it down to some depth.  The length of a
string is one of them, but a comparison of strings does not look at it.

* `innerHash`, `lhash`: the code;
* `hashed`: the words, in order; `innerHash_spec`: they are appended one after the other;
* `Alike`: values with the same lengths of strings; `hashed_eq_iff`: of values that compare as equal,
  they are the ones with the same words;
* `hash_respects_compare`, `hash_relocate`: hashing and comparing, and hashing and moving.
-/

namespace LamaRv.Gc

open Marking WordBytes TaggedInt WrappedOrder

/-! ### The code -/

/-- `HASH_DEPTH`. -/
def hashDepth : ℕ := 3

/-- `HASH_APPEND`. -/
def hashAppend (acc x : ℕ) : ℕ :=
  ((acc + x) <<< 32) % 2 ^ 64 ||| ((acc + x) % 2 ^ 64) >>> 32

/-- The loop of `inner_hash` over the bytes of a string, with some fuel.  A `char` is not signed on
RISC-V. -/
def hashBytes (m : Mem) : ℕ → ℕ → ℕ → Except Stop ℕ
  | 0, _, _ => .error .fuel
  | n + 1, acc, p =>
    if byteAt m p = 0 then .ok acc else hashBytes m n (hashAppend acc (byteAt m p)) (p + 1)

/-- The loop of `inner_hash` over the fields. -/
def hashFields (hash : ℕ → ℕ → Except Stop ℕ) (m : Mem) (p : ℕ) : ℕ → List ℕ → Except Stop ℕ
  | acc, [] => .ok acc
  | acc, i :: is => do
    let acc ← hash acc (m (p + 8 * i))
    hashFields hash m p acc is

/-- The `switch` of `inner_hash`, on the tag of an object; `hash` is for the fields. -/
def hashContents (m : Mem) (hash : ℕ → ℕ → Except Stop ℕ) (p t l acc : ℕ) : Except Stop ℕ :=
  switchTag t (hashBytes m (2 ^ 64) acc p)
    (hashFields hash m p (hashAppend acc (m p)) (List.range' 1 (l - 1)))
    (hashFields hash m p acc (List.range' 0 l))
    (hashFields hash m p (hashAppend acc (m p)) (List.range' 1 l))
    (.error (.failure ("invalid data_header " ++ toString t ++ " in hash *****\n")))

/-- `inner_hash`; the first argument is `HASH_DEPTH + 1 - depth`. -/
def innerHash (heap : MemoryChunk) (m : Mem) : ℕ → ℕ → ℕ → Except Stop ℕ
  | 0, acc, _ => .ok acc
  | d + 1, acc, p =>
    if unboxed p then .ok (hashAppend acc (toSizeT (unbox p)))
    else if isValidHeapPointer heap p then
      let t := tag (m (toData p))
      let l := len (m (toData p))
      hashContents m (innerHash heap m d) p t l (hashAppend (hashAppend acc t) l)
    else .ok (hashAppend acc p)

/-- `Lhash`. -/
def lhash (heap : MemoryChunk) (m : Mem) (p : ℕ) : Except Stop ℕ := do
  let h ← innerHash heap m (hashDepth + 1) 0 p
  return box ((0x3fffff &&& h : ℕ) : ℤ)

/-! ### The words of a hash -/

namespace Value

mutual

/-- The words that are appended for a value, of which some levels are looked at. -/
def hashed : Value → ℕ → List ℕ
  | _, 0 => []
  | .int n, _ + 1 => [toSizeT n]
  | .pointer a, _ + 1 => [a]
  | .string bytes, _ + 1 => LamaType.string.tag :: bytes.length :: text bytes
  | .array vs, d + 1 => LamaType.array.tag :: vs.length :: hashedAll vs d
  | .sexp t vs, d + 1 => LamaType.sexp.tag :: vs.length :: toSizeT t :: hashedAll vs d
  | .closure code vs, d + 1 => LamaType.closure.tag :: (vs.length + 1) :: code :: hashedAll vs d

def hashedAll : List Value → ℕ → List ℕ
  | [], _ => []
  | v :: vs, d => hashed v d ++ hashedAll vs d

end

mutual

/-- On some levels, strings in the same place have the same length, and addresses outside of the heap
are the same. -/
def Alike : Value → Value → ℕ → Prop
  | .pointer a, .pointer b, _ + 1 => a = b
  | .string bytes, .string bytes', _ + 1 => bytes.length = bytes'.length
  | .array vs, .array ws, d + 1 => AlikeAll vs ws d
  | .sexp _ vs, .sexp _ ws, d + 1 => AlikeAll vs ws d
  | .closure _ vs, .closure _ ws, d + 1 => AlikeAll vs ws d
  | _, _, _ => True

def AlikeAll : List Value → List Value → ℕ → Prop
  | v :: vs, w :: ws, d => Alike v w d ∧ AlikeAll vs ws d
  | _, _, _ => True

end

end Value

section Hash

variable {heap : MemoryChunk} {m : Mem} {os : List ℕ} {p q n d acc x y : ℕ} {v w : Value}

theorem hashAppend_congr (h : x % 2 ^ 64 = y % 2 ^ 64) : hashAppend acc x = hashAppend acc y := by
  have hsum : (acc + x) % 2 ^ 64 = (acc + y) % 2 ^ 64 := Nat.ModEq.add_left acc h
  have hshift (z : ℕ) : (z <<< 32) % 2 ^ 64 = ((z % 2 ^ 64) <<< 32) % 2 ^ 64 := by
    rw [Nat.shiftLeft_eq, Nat.shiftLeft_eq, Nat.mod_mul_mod]
  rw [hashAppend, hashAppend, hshift, hsum, ← hshift]

theorem hashBytes_spec {bs : List ℕ} (h : TextAt m bs p) (hn : bs.length < n) :
    hashBytes m n acc p = .ok (bs.foldl hashAppend acc) := by
  induction bs generalizing p n acc with
  | nil =>
    obtain ⟨n, rfl⟩ := Nat.exists_eq_add_one.2 (Nat.zero_lt_of_lt hn)
    have hzero : byteAt m p = 0 := h
    rw [hashBytes, if_pos hzero]
    rfl
  | cons b bs ih =>
    obtain ⟨n, rfl⟩ := Nat.exists_eq_add_one.2 (Nat.zero_lt_of_lt hn)
    obtain ⟨hne, rfl, htext⟩ := h
    rw [hashBytes, if_neg hne, ih htext (Nat.lt_of_succ_lt_succ hn), List.foldl_cons]

theorem toSizeT_aint (w : ℕ) : toSizeT (aint w) = w % 2 ^ 64 := by
  unfold toSizeT aint
  rw [Int.bmod_eq_self_sub_mul_bdiv]
  push_cast
  omega

/-- The object is looked at after its tag and its length. -/
theorem innerHash_object {t : LamaType} {l : ℕ} (hos : Placed heap m os) (h : ObjectAt m os t l p) :
    innerHash heap m (d + 1) acc p =
      hashContents m (innerHash heap m d) p t.tag l (hashAppend (hashAppend acc t.tag) l) := by
  rw [innerHash, h.not_unboxed hos, if_neg Bool.false_ne_true, if_pos (h.valid hos)]
  simp only [h.tag, h.len_eq]

mutual

/-- The words of a value are appended to the hash one after the other. -/
theorem innerHash_spec (hos : Placed heap m os) {v : Value} {p d acc : ℕ}
    (h : Represents heap m os v p) :
    innerHash heap m d acc p = .ok ((v.hashed d).foldl hashAppend acc) := by
  cases d with
  | zero => cases v <;> rfl
  | succ d =>
    cases v with
    | int x =>
      rw [Represents] at h
      rw [innerHash, if_pos h.2.1, h.2.2, Value.hashed]
      rfl
    | pointer a =>
      rw [Represents] at h
      rw [innerHash, h.2.1, h.2.2.1, if_neg Bool.false_ne_true, if_neg Bool.false_ne_true,
        h.2.2.2, Value.hashed]
      rfl
    | string bytes =>
      rw [Represents] at h
      have htext := text_length_le bytes
      have hlen := h.1.length_lt
      rw [innerHash_object hos h.1, hashContents, switchTag_string, Value.hashed, List.foldl_cons,
        List.foldl_cons, hashBytes_spec (textAt_of_bytes h.1 h.2.1 h.2.2) (by omega)]
    | array vs =>
      rw [Represents] at h
      rw [innerHash_object hos h.1, hashContents, switchTag_array, Value.hashed, List.foldl_cons,
        List.foldl_cons]
      exact hashFields_spec hos h.2
    | sexp t vs =>
      rw [Represents] at h
      obtain ⟨hobj, rfl, -, -, hvs⟩ := h
      have hword : m p % 2 ^ 64 = toSizeT (aint (m p)) % 2 ^ 64 := by
        rw [toSizeT_aint, Nat.mod_mod]
      rw [innerHash_object hos hobj, hashContents, switchTag_sexp, Value.hashed, List.foldl_cons,
        List.foldl_cons, List.foldl_cons, hashAppend_congr hword]
      exact hashFields_spec hos hvs
    | closure code vs =>
      rw [Represents] at h
      obtain ⟨hobj, rfl, -, hvs⟩ := h
      rw [innerHash_object hos hobj, hashContents, switchTag_closure, Value.hashed, List.foldl_cons,
        List.foldl_cons, List.foldl_cons]
      exact hashFields_spec hos hvs

/-- The fields are hashed one after the other. -/
theorem hashFields_spec (hos : Placed heap m os) {vs : List Value} {p i d acc : ℕ}
    (h : RepresentsAll heap m os vs (p + 8 * i)) :
    hashFields (innerHash heap m d) m p acc (List.range' i vs.length) =
      .ok ((Value.hashedAll vs d).foldl hashAppend acc) := by
  cases vs with
  | nil => rfl
  | cons v vs =>
    rw [RepresentsAll] at h
    have hnext : p + 8 * i + 8 = p + 8 * (i + 1) := by omega
    rw [hnext] at h
    rw [List.length_cons, List.range'_succ, hashFields, innerHash_spec hos h.1, Value.hashedAll,
      List.foldl_append]
    exact hashFields_spec hos h.2

end

/-! ### Values that compare as equal -/

theorem word63_inj {x y : ℤ} (h : word63 x = word63 y) (h₁ : -2 ^ 63 < x - y) (h₂ : x - y < 2 ^ 63) :
    x = y := by
  by_contra hne
  exact word63_ne hne h₁ h₂ h

/-- Keys begin with their kinds. -/
theorem kindKey_inj {k k' : Kind} {s t : List Int63} (h : kindKey k ++ s = kindKey k' ++ t) :
    k = k' ∧ s = t := by
  have hdiff : ∀ x ∈ [(0 : ℤ), 1, 2], ∀ y ∈ [(0 : ℤ), 1, 2], word63 x = word63 y → x = y := by decide
  have htag : ∀ t t' : LamaType, word63 t.tag = word63 t'.tag → t = t' := by
    intro t t' heq
    have h₁ := t.tag_lt
    have h₂ := t'.tag_lt
    refine LamaType.tag_injective ?_
    exact_mod_cast word63_inj heq (by omega) (by omega)
  cases k <;> cases k' <;>
    simp only [kindKey, List.cons_append, List.nil_append, List.cons.injEq] at h
  case int.int | pointer.pointer => exact ⟨rfl, h.2⟩
  case object.object t t' =>
    obtain rfl := htag t t' h.2.1
    exact ⟨rfl, h.2.2⟩
  all_goals exact absurd (hdiff _ (by simp) _ (by simp) h.1) (by decide)

/-- Bytes that end with a zero. -/
theorem map_bytes_inj {xs ys : List ℕ} {s t : List Int63} (hx : ∀ b ∈ xs, b < 256 ∧ b ≠ 0)
    (hy : ∀ b ∈ ys, b < 256 ∧ b ≠ 0)
    (h : ((xs ++ [0]).map fun b : ℕ => word63 b) ++ s = ((ys ++ [0]).map fun b : ℕ => word63 b) ++ t) :
    xs = ys ∧ s = t := by
  have hinj {a b : ℕ} (ha : a < 256) (hb : b < 256) (heq : word63 a = word63 b) : a = b := by
    exact_mod_cast word63_inj heq (by omega) (by omega)
  induction xs generalizing ys with
  | nil =>
    cases ys with
    | nil => exact ⟨rfl, (List.cons.inj h).2⟩
    | cons y ys =>
      have hb := hy y List.mem_cons_self
      exact absurd (hinj (by decide) hb.1 (List.cons.inj h).1).symm hb.2
  | cons x xs ih =>
    have hb := hx x List.mem_cons_self
    cases ys with
    | nil => exact absurd (hinj hb.1 (by decide) (List.cons.inj h).1) hb.2
    | cons y ys =>
      obtain rfl := hinj hb.1 (hy y List.mem_cons_self).1 (List.cons.inj h).1
      obtain ⟨rfl, hst⟩ := ih (fun b hb => hx b (List.mem_cons_of_mem _ hb))
        (fun b hb => hy b (List.mem_cons_of_mem _ hb)) (List.cons.inj h).2
      exact ⟨rfl, hst⟩

theorem text_bytes {bytes : List ℕ} (h : stringBytes m p = bytes) :
    ∀ b ∈ Value.text bytes, b < 256 ∧ b ≠ 0 := fun b hb =>
  ⟨text_lt h b hb, by simpa using List.all_eq_true.1 List.all_takeWhile b hb⟩

/-- The lengths in two keys. -/
theorem length_inj {t t' : LamaType} {l l' : ℕ} (hp : ObjectAt m os t l p) (hq : ObjectAt m os t' l' q)
    (h : word63 l = word63 l') : l = l' := by
  have h₁ := hp.length_lt
  have h₂ := hq.length_lt
  exact_mod_cast word63_inj h (by omega) (by omega)

mutual

/-- If the keys are the same, the same number of words is hashed, and they are the same words just if
the values are alike. -/
theorem hashed_of_key (hos : Placed heap m os) {v w : Value} {p q d : ℕ} {s t : List Int63}
    (hv : Represents heap m os v p) (hw : Represents heap m os w q) (h : v.key ++ s = w.key ++ t) :
    s = t ∧ (v.hashed d).length = (w.hashed d).length ∧ (v.hashed d = w.hashed d ↔ v.Alike w d) := by
  have hkind : v.kind = w.kind := by
    obtain ⟨k, hk⟩ := v.kindKey_prefix
    obtain ⟨k', hk'⟩ := w.kindKey_prefix
    rw [hk, hk', List.append_assoc, List.append_assoc] at h
    exact (kindKey_inj h).1
  cases v with
  | int x =>
    cases w <;> simp only [Value.kind, reduceCtorEq] at hkind
    rw [Represents] at hv hw
    rw [Value.key, Value.key, List.append_assoc, List.append_assoc] at h
    obtain ⟨hword, hst⟩ := List.cons.inj (kindKey_inj h).2
    have h₁ := unbox_bounds p
    have h₂ := unbox_bounds q
    rw [hv.2.2] at h₁
    rw [hw.2.2] at h₂
    obtain rfl := word63_inj hword (by omega) (by omega)
    refine ⟨hst, rfl, iff_of_true rfl ?_⟩
    cases d <;> trivial
  | pointer a =>
    cases w <;> simp only [Value.kind, reduceCtorEq] at hkind
    rw [Value.key, Value.key, List.append_assoc, List.append_assoc] at h
    refine ⟨(List.cons.inj (kindKey_inj h).2).2, ?_⟩
    cases d with
    | zero => exact ⟨rfl, iff_of_true rfl trivial⟩
    | succ d => simp [Value.hashed, Value.Alike]
  | string bytes =>
    cases w <;> simp only [Value.kind, reduceCtorEq, Kind.object.injEq] at hkind
    rw [Represents] at hv hw
    rw [Value.key, Value.key, List.append_assoc, List.append_assoc] at h
    obtain ⟨htext, hst⟩ := map_bytes_inj (text_bytes hv.2.1) (text_bytes hw.2.1) (kindKey_inj h).2
    refine ⟨hst, ?_⟩
    cases d with
    | zero => exact ⟨rfl, iff_of_true rfl trivial⟩
    | succ d => simp [Value.hashed, Value.Alike, htext]
  | array vs =>
    cases w <;> simp only [Value.kind, reduceCtorEq, Kind.object.injEq] at hkind
    rw [Represents] at hv hw
    rw [Value.key, Value.key, List.append_assoc, List.append_assoc] at h
    obtain ⟨hlen, hrest⟩ := List.cons.inj (kindKey_inj h).2
    have hlen := length_inj hv.1 hw.1 hlen
    cases d with
    | zero => exact ⟨(hashedAll_of_key (d := 0) hos hlen hv.2 hw.2 hrest).1, rfl, iff_of_true rfl trivial⟩
    | succ d =>
      obtain ⟨hst, hcount, hiff⟩ := hashedAll_of_key (d := d) hos hlen hv.2 hw.2 hrest
      refine ⟨hst, ?_, ?_⟩
      · simp [Value.hashed, hcount]
      · simp [Value.hashed, Value.Alike, hlen, hiff]
  | sexp x vs =>
    cases w <;> simp only [Value.kind, reduceCtorEq, Kind.object.injEq] at hkind
    rw [Represents] at hv hw
    rw [Value.key, Value.key, List.append_assoc, List.append_assoc] at h
    obtain ⟨htag, hrest⟩ := List.cons.inj (kindKey_inj h).2
    obtain ⟨hlen, hrest⟩ := List.cons.inj hrest
    obtain ⟨hobj, -, h₁, h₂, hv⟩ := hv
    obtain ⟨hobj', -, h₁', h₂', hw⟩ := hw
    obtain rfl := word63_inj htag (by omega) (by omega)
    have hlen := length_inj hobj hobj' hlen
    cases d with
    | zero => exact ⟨(hashedAll_of_key (d := 0) hos hlen hv hw hrest).1, rfl, iff_of_true rfl trivial⟩
    | succ d =>
      obtain ⟨hst, hcount, hiff⟩ := hashedAll_of_key (d := d) hos hlen hv hw hrest
      refine ⟨hst, ?_, ?_⟩
      · simp [Value.hashed, hcount]
      · simp [Value.hashed, Value.Alike, hlen, hiff]
  | closure code vs =>
    cases w <;> simp only [Value.kind, reduceCtorEq, Kind.object.injEq] at hkind
    rw [Represents] at hv hw
    rw [Value.key, Value.key, List.append_assoc, List.append_assoc] at h
    obtain ⟨hcode, hrest⟩ := List.cons.inj (kindKey_inj h).2
    obtain ⟨hlen, hrest⟩ := List.cons.inj hrest
    obtain ⟨hobj, -, hc, hv⟩ := hv
    obtain ⟨hobj', -, hc', hw⟩ := hw
    have hcode := word63_inj hcode (by omega) (by omega)
    obtain rfl : code = _ := by exact_mod_cast hcode
    have hlen := Nat.succ.inj (length_inj hobj hobj' (by exact_mod_cast hlen))
    cases d with
    | zero => exact ⟨(hashedAll_of_key (d := 0) hos hlen hv hw hrest).1, rfl, iff_of_true rfl trivial⟩
    | succ d =>
      obtain ⟨hst, hcount, hiff⟩ := hashedAll_of_key (d := d) hos hlen hv hw hrest
      refine ⟨hst, ?_, ?_⟩
      · simp [Value.hashed, hcount]
      · simp [Value.hashed, Value.Alike, hlen, hiff]

theorem hashedAll_of_key (hos : Placed heap m os) {vs ws : List Value} {a b d : ℕ} {s t : List Int63}
    (hlen : vs.length = ws.length) (hv : RepresentsAll heap m os vs a)
    (hw : RepresentsAll heap m os ws b) (h : Value.keyAll vs ++ s = Value.keyAll ws ++ t) :
    s = t ∧ (Value.hashedAll vs d).length = (Value.hashedAll ws d).length ∧
      (Value.hashedAll vs d = Value.hashedAll ws d ↔ Value.AlikeAll vs ws d) := by
  cases vs with
  | nil =>
    obtain rfl := List.length_eq_zero_iff.1 hlen.symm
    exact ⟨h, rfl, iff_of_true rfl trivial⟩
  | cons v vs =>
    cases ws with
    | nil => cases hlen
    | cons w ws =>
      rw [RepresentsAll] at hv hw
      rw [Value.keyAll, Value.keyAll, List.append_assoc, List.append_assoc] at h
      obtain ⟨hrest, hcount, hiff⟩ := hashed_of_key (d := d) hos hv.1 hw.1 h
      obtain ⟨hst, hcount', hiff'⟩ := hashedAll_of_key (d := d) hos (Nat.succ.inj hlen) hv.2 hw.2 hrest
      refine ⟨hst, ?_, ?_⟩
      · rw [Value.hashedAll, Value.hashedAll, List.length_append, List.length_append, hcount, hcount']
      · rw [Value.hashedAll, Value.hashedAll, Value.AlikeAll, ← hiff, ← hiff']
        exact ⟨fun heq => List.append_inj heq hcount, fun heq => by rw [heq.1, heq.2]⟩

end

/-- The hash of a word depends on the value that it stands for. -/
theorem lhash_spec (hos : Placed heap m os) (h : Represents heap m os v p) :
    lhash heap m p =
      .ok (box ((0x3fffff &&& (v.hashed (hashDepth + 1)).foldl hashAppend 0 : ℕ) : ℤ)) := by
  rw [lhash, innerHash_spec hos h]
  rfl

/-- Values compare as equal when their keys are the same. -/
theorem compare_eq_zero_iff (hos : Placed heap m os) (hv : Represents heap m os v p)
    (hw : Represents heap m os w q) :
    (∃ N, ∀ n ≥ N, lcompare heap m n p q = .ok (box 0)) ↔ v.key = w.key := by
  constructor
  · rintro ⟨N, hN⟩
    obtain ⟨z, hz, hdec⟩ := lcompare_spec hos hv hw (Nat.le_add_left v.weight N)
    rw [hN _ (Nat.le_add_right N _)] at hz
    have hbox : box z = box 0 := (Except.ok.inj hz).symm
    exact hdec.eq_zero_iff.1 ((box_eq_box_zero_iff z).1 hbox)
  · intro hkey
    refine ⟨v.weight, fun n hn => ?_⟩
    obtain ⟨z, hz, hdec⟩ := lcompare_spec hos hv hw hn
    rw [hz, (box_eq_box_zero_iff z).2 (hdec.eq_zero_iff.2 hkey)]

/-- **Values that compare as equal** have the same words to hash just if they are alike. -/
theorem lhash_of_compare (hos : Placed heap m os) (hv : Represents heap m os v p)
    (hw : Represents heap m os w q) (h : ∃ N, ∀ n ≥ N, lcompare heap m n p q = .ok (box 0)) :
    (v.hashed (hashDepth + 1) = w.hashed (hashDepth + 1) ↔ v.Alike w (hashDepth + 1)) ∧
      (v.Alike w (hashDepth + 1) → ∃ x, lhash heap m p = .ok x ∧ lhash heap m q = .ok x) := by
  have hkey : v.key ++ [] = w.key ++ [] := by rw [(compare_eq_zero_iff hos hv hw).1 h]
  have hiff := (hashed_of_key (d := hashDepth + 1) hos hv hw hkey).2.2
  refine ⟨hiff, fun halike => ⟨_, lhash_spec hos hv, ?_⟩⟩
  rw [lhash_spec hos hw, hiff.2 halike]

end Hash

/-! ### Hashing and collections -/

section Collection

variable {s s' : State} {os kept : List ℕ} {place : ℕ → ℕ} {v : Value} {p : ℕ}

/-- A live word is hashed to the same number after objects have been moved. -/
theorem lhash_relocate (hos : Placed s.heap s.mem os) (hrel : Relocates s os kept place s')
    (h : Represents s.heap s.mem os v p)
    (hlive : isValidHeapPointer s.heap p = true → Live s (p - 16))
    (hout : ∀ a ∈ v.pointers, isValidHeapPointer s'.heap a = false) :
    lhash s'.heap s'.mem (image s.heap place p) = lhash s.heap s.mem p := by
  have hnew := h.relocate hos hrel hlive hout
  rw [lhash_spec hos h, lhash_spec ⟨hrel.objects, hrel.aligned⟩ hnew]

/-- **A collection** does not change the hashes of what is live. -/
theorem lhash_collect {mmap : ℕ → ℕ} {additionalSize : ℕ} (h : Collectable s os) (hr : Rooted s)
    (hsize : 8 * (2 * s.heap.size + additionalSize) < 2 ^ 64)
    (hmmap : ∀ n, Fresh s (mmap (8 * n)) n) :
    ∃ s' place, collect (fun n => some (mmap n)) s additionalSize = some s' ∧
      (∀ a ∈ fixedWords s, s'.mem a = image s.heap place (s.mem a)) ∧
      ∀ v p, Represents s.heap s.mem os v p →
        (isValidHeapPointer s.heap p = true → Live s (p - 16)) →
        (∀ a ∈ v.pointers, isValidHeapPointer s'.heap a = false) →
        lhash s'.heap s'.mem (image s.heap place p) = lhash s.heap s.mem p := by
  rcases @collect_spec s os _ (fun n => some (mmap n)) h hr (.of_size h.formed hsize) fun n begin hbegin => by
    cases hbegin
    exact hmmap n with ⟨n, hnone, -⟩ | ⟨kept, s', hcollect, -, hc⟩
  · cases hnone
  · refine ⟨s', newPlace s s' kept, hcollect, hc.relocates.roots, fun v p hv hlive hout => ?_⟩
    exact lhash_relocate h.formed.placed hc.relocates hv hlive hout

end Collection

/-- **When hashing agrees with comparing**, and with collections. -/
theorem hash_agrees (heap : MemoryChunk) (m : Mem) (os : List ℕ) (v w : Value) (p q : ℕ)
    (mmap : ℕ → ℕ) (s : State) (os' : List ℕ) (additionalSize : ℕ) :
    (Placed heap m os → Represents heap m os v p → Represents heap m os w q →
      (∃ N, ∀ n ≥ N, lcompare heap m n p q = .ok (box 0)) →
      (v.hashed (hashDepth + 1) = w.hashed (hashDepth + 1) ↔ v.Alike w (hashDepth + 1)) ∧
        (v.Alike w (hashDepth + 1) → ∃ x, lhash heap m p = .ok x ∧ lhash heap m q = .ok x)) ∧
    (Collectable s os' → Rooted s → 8 * (2 * s.heap.size + additionalSize) < 2 ^ 64 →
      (∀ n, Fresh s (mmap (8 * n)) n) →
      ∃ s' place, collect (fun n => some (mmap n)) s additionalSize = some s' ∧
        (∀ a ∈ fixedWords s, s'.mem a = image s.heap place (s.mem a)) ∧
        ∀ v p, Represents s.heap s.mem os' v p →
          (isValidHeapPointer s.heap p = true → Live s (p - 16)) →
          (∀ a ∈ v.pointers, isValidHeapPointer s'.heap a = false) →
          lhash s'.heap s'.mem (image s.heap place p) = lhash s.heap s.mem p) :=
  ⟨lhash_of_compare, lhash_collect⟩

/-! ### Three strings -/

/-- Three strings that begin with the same byte; the second one has a zero behind it. -/
def hashMem : Mem := fun a =>
  match a with
  | 1024 | 1072 => 9
  | 1048 => 17
  | 1040 | 1064 | 1088 => 97
  | _ => 0

def hashHeap : MemoryChunk := ⟨1024, 1096, 1096, 9⟩

theorem hashMem_placed : Placed hashHeap hashMem [1024, 1048, 1072] := ⟨by decide, by decide⟩

theorem hashMem_first : Represents hashHeap hashMem [1024, 1048, 1072] (.string [97]) 1040 :=
  represents_string ⟨1024, by decide, by decide, by decide, by decide, by decide⟩ (by decide) (by decide)

theorem hashMem_second : Represents hashHeap hashMem [1024, 1048, 1072] (.string [97, 0]) 1064 :=
  represents_string ⟨1048, by decide, by decide, by decide, by decide, by decide⟩ (by decide) (by decide)

theorem hashMem_third : Represents hashHeap hashMem [1024, 1048, 1072] (.string [97]) 1088 :=
  represents_string ⟨1072, by decide, by decide, by decide, by decide, by decide⟩ (by decide) (by decide)

/-- The first and the third string, and a collection that moves a string. -/
theorem hash_agrees_strings :
    (∃ x, lhash hashHeap hashMem 1040 = .ok x ∧ lhash hashHeap hashMem 1088 = .ok x) ∧
    ∃ s' place, collect (fun _ => some 16384) (stringState.during 4096 [8208]) 0 = some s' ∧
      lhash s'.heap s'.mem (image stringState.heap place 1040) = lhash stringState.heap stringMem 1040 := by
  have h := hash_agrees hashHeap hashMem [1024, 1048, 1072] (.string [97]) (.string [97]) 1040 1088
    (fun _ => 16384) (stringState.during 4096 [8208]) [1024, 1048] 0
  constructor
  · have hcompare := (compare_eq_zero_iff hashMem_placed hashMem_first hashMem_third).2 rfl
    exact (h.1 hashMem_placed hashMem_first hashMem_third hcompare).2 rfl
  · have hready : Ready (fun _ => 16384) stringState [1024, 1048] 4096 [8208] [] 0 :=
      stringState_ready (by decide) (by decide)
    obtain ⟨s', place, hcollect, -, hhash⟩ := h.2 hready.collectable hready.rooted (by decide)
      hready.fresh
    refine ⟨s', place, hcollect, hhash (.string [97, 98]) 1040 ?_ ?_ (by simp [Value.pointers])⟩
    · exact represents_string ⟨1024, by decide, by decide, by decide, by decide, by decide⟩
        (by decide) (by decide)
    · intro _
      exact ⟨8208, by decide, by decide, .refl⟩

/-- The first and the second string compare as equal, and have different hashes. -/
theorem not_hash_agrees :
    ¬ ((∃ N, ∀ n ≥ N, lcompare hashHeap hashMem n 1040 1064 = .ok (box 0)) →
      ∃ x, lhash hashHeap hashMem 1040 = .ok x ∧ lhash hashHeap hashMem 1064 = .ok x) := by
  intro h
  obtain ⟨x, h₁, h₂⟩ := h ((compare_eq_zero_iff hashMem_placed hashMem_first hashMem_second).2 rfl)
  rw [lhash_spec hashMem_placed hashMem_first] at h₁
  rw [lhash_spec hashMem_placed hashMem_second, ← h₁] at h₂
  exact absurd h₂ (by decide)

end LamaRv.Gc
