import Mathlib.Tactic

/-!
# Constructor tags (`LtagHash`, `de_hash`)

A constructor name is packed into an integer, six bits for each of its first ten characters; the
64 characters of `chars` are the digits.  The compiler and the runtime each have a copy of the
two functions; they differ in the texts of their failures only.

`de_hash` writes its result backwards into an eleven-byte buffer and stops when the number is
zero; `none` stands for a write before the buffer.

* `ltagHash_eq`: the hash of a constructor name;
* `deHash_pack`: it is undone by `de_hash`;
* `pack_mod_eq_iff`: which names have hashes that agree modulo `2^31`;
* `tagHash_injective`: the round trip, for names and the empty text.
-/

namespace LamaRv

/-- The tag alphabet, in the order of its codes. -/
def chars : List Char := "_abcdefghijklmnopqrstuvwxyzABCDEFGHIJKLMNOPQRSTUVWXYZ0123456789'".toList

/-- `MAX_SEXP_TAGLEN` on a 64-bit machine. -/
def maxSexpTaglen : ℕ := 10

/-- The loop of `de_hash`: `free` bytes are left before `p`. On an `aint`, `n & 63` and `n >> 6`
are the remainder and the floored quotient. -/
def deHashLoop (free : ℕ) (n : ℤ) (p : List Char) : Option (List Char) :=
  if n = 0 then some p
  else match free with
    | 0 => none
    | free + 1 => deHashLoop free (n / 64) ((chars[(n % 64).toNat]?).getD '\x00' :: p)

def deHash (n : ℤ) : Option (List Char) := deHashLoop maxSexpTaglen n []

/-- The loop of `LtagHash` over the name, with the characters still allowed and the hash so far. -/
def tagHashLoop (notFound : Char → String) : List Char → ℕ → ℕ → Except String ℕ
  | [], _, h => .ok h
  | _ :: _, 0, h => .ok h
  | c :: s, limit + 1, h =>
      match chars.findIdx? (· = c) with
      | some pos => tagHashLoop notFound s limit (h <<< 6 ||| pos)
      | none => .error (notFound c)

/-- `LtagHash` with the texts of its failures: hash, check that `de_hash` gives the name back,
and box. -/
def tagHash (notFound : Char → String) (mismatch : List Char → Option (List Char) → String)
    (s : List Char) : Except String ℤ := do
  let h ← tagHashLoop notFound s maxSexpTaglen 0
  if (deHash h).map (List.take maxSexpTaglen) = some (s.take maxSexpTaglen) then
    return 2 * h + 1
  else throw (mismatch s (deHash h))

/-- The text of a C string; the part read outside a buffer is not shown. -/
def cText (s : Option (List Char)) : String := String.ofList (s.getD [])

/-- `LtagHash` of the compiler. -/
def ltagHash (s : String) : Except String ℤ :=
  tagHash (fun c => "tagHash: character not found: " ++ String.ofList [c])
    (fun s d => String.ofList s ++ " <-> " ++ cText d) s.toList

/-- `LtagHash` of the runtime. -/
def runtimeLtagHash (s : String) : Except String ℤ :=
  tagHash (fun c => "tagHash: character not found: " ++ String.ofList [c] ++ "\n")
    (fun s d => String.ofList s ++ " <-> " ++ cText d ++ "\n") s.toList

/-! ### Packing -/

/-- The code of a character of the tag alphabet. -/
def code (c : Char) : ℕ := chars.idxOf c

/-- The number that has the codes of the characters as its digits. -/
def pack (s : List Char) : ℕ := Nat.ofDigits 64 (s.reverse.map code)

/-- A constructor name: not empty, over the tag alphabet, and not starting with `'_'`. -/
structure IsTagName (s : List Char) : Prop where
  ne_nil : s ≠ []
  head : s.head? ≠ some '_'
  alphabet : ∀ c ∈ s, c ∈ chars

/-- The alphabet is checked character by character. -/
theorem mem_chars_of_all {s : List Char} (h : s.all chars.contains = true) : ∀ c ∈ s, c ∈ chars :=
  fun c hc => by simpa using List.all_eq_true.1 h c hc

theorem IsTagName.of_all {s : List Char} (hne : s ≠ []) (hhead : s.head? ≠ some '_')
    (hall : s.all chars.contains = true) : IsTagName s :=
  ⟨hne, hhead, mem_chars_of_all hall⟩

theorem code_lt {c : Char} (h : c ∈ chars) : code c < 64 := List.idxOf_lt_length_iff.2 h

theorem getElem?_code {c : Char} (h : c ∈ chars) : chars[code c]? = some c := by
  have hlt : List.idxOf c chars < chars.length := List.idxOf_lt_length_iff.2 h
  rw [code, List.getElem?_eq_getElem hlt, List.getElem_idxOf]

theorem code_pos {c : Char} (h : c ∈ chars) (hc : c ≠ '_') : 0 < code c := by
  rw [Nat.pos_iff_ne_zero]
  intro h0
  have hget := getElem?_code h
  rw [h0] at hget
  exact hc (Option.some.inj hget).symm

theorem pack_append_singleton (s : List Char) (c : Char) :
    pack (s ++ [c]) = code c + 64 * pack s := by
  simp [pack, Nat.ofDigits_cons]

theorem findIdx?_chars {c : Char} (h : c ∈ chars) : chars.findIdx? (· = c) = some (code c) := by
  rw [List.findIdx?_eq_some_iff_findIdx_eq]
  exact ⟨code_lt h, rfl⟩

/-- The loop of `LtagHash` appends the characters to those packed so far. -/
theorem tagHashLoop_eq (notFound : Char → String) {s : List Char} (h : ∀ c ∈ s, c ∈ chars)
    (limit : ℕ) (t : List Char) :
    tagHashLoop notFound s limit (pack t) = .ok (pack (t ++ s.take limit)) := by
  induction s generalizing limit t with
  | nil => simp [tagHashLoop]
  | cons c s ih =>
    cases limit with
    | zero => simp [tagHashLoop]
    | succ limit =>
      have hc := h c List.mem_cons_self
      have hpack : pack t <<< 6 ||| code c = pack (t ++ [c]) := by
        rw [pack_append_singleton, Nat.add_comm, Nat.shiftLeft_eq, Nat.mul_comm]
        exact (Nat.two_pow_add_eq_or_of_lt (i := 6) (code_lt hc) (pack t)).symm
      simp only [tagHashLoop, findIdx?_chars hc, hpack]
      rw [ih (fun c hc => h c (List.mem_cons_of_mem _ hc)), List.take_succ_cons,
        List.append_assoc, List.singleton_append]

/-! ### Unpacking -/

/-- A number whose first digit is not zero is not zero. -/
theorem ofDigits_code_ne_zero {r : List Char} (h : ∀ c ∈ r, c ∈ chars)
    (hlast : r.getLast? ≠ some '_') (hne : r ≠ []) : Nat.ofDigits 64 (r.map code) ≠ 0 := by
  induction r with
  | nil => exact absurd rfl hne
  | cons c r ih =>
    rw [List.map_cons, Nat.ofDigits_cons]
    cases r with
    | nil =>
      have hpos := code_pos (h c List.mem_cons_self) (by simpa using hlast)
      simp only [List.map_nil, Nat.ofDigits_nil]
      omega
    | cons d r =>
      have := ih (fun c hc => h c (List.mem_cons_of_mem _ hc)) (by simpa using hlast) (by simp)
      omega

/-- `de_hash` gives back the characters of a number whose first digit is not zero. -/
theorem deHashLoop_ofDigits {r : List Char} (h : ∀ c ∈ r, c ∈ chars) (hlast : r.getLast? ≠ some '_')
    {free : ℕ} (hfree : r.length ≤ free) (p : List Char) :
    deHashLoop free (Nat.ofDigits 64 (r.map code) : ℕ) p = some (r.reverse ++ p) := by
  induction r generalizing free p with
  | nil => cases free <;> simp [deHashLoop]
  | cons c r ih =>
    have hc := h c List.mem_cons_self
    have hlt := code_lt hc
    have hr : ∀ c ∈ r, c ∈ chars := fun c hc => h c (List.mem_cons_of_mem _ hc)
    have hne : Nat.ofDigits 64 ((c :: r).map code) ≠ 0 := ofDigits_code_ne_zero h hlast (by simp)
    obtain ⟨free, rfl⟩ : ∃ k, free = k + 1 := ⟨free - 1, by simp at hfree; omega⟩
    have hlast' : r.getLast? ≠ some '_' := by
      cases r with
      | nil => simp
      | cons d r => simpa using hlast
    rw [List.map_cons, Nat.ofDigits_cons] at hne ⊢
    have hdiv : ((code c + 64 * Nat.ofDigits 64 (r.map code) : ℕ) : ℤ) / 64 =
        (Nat.ofDigits 64 (r.map code) : ℕ) := by omega
    have hmod : (((code c + 64 * Nat.ofDigits 64 (r.map code) : ℕ) : ℤ) % 64).toNat = code c := by
      omega
    rw [deHashLoop, if_neg (by exact_mod_cast hne), hdiv, hmod, getElem?_code hc, Option.getD_some,
      ih hr hlast' (by simpa using hfree), List.reverse_cons, List.append_assoc,
      List.singleton_append]

/-- A negative number never becomes zero. -/
theorem deHashLoop_neg {n : ℤ} (h : n < 0) (free : ℕ) (p : List Char) :
    deHashLoop free n p = none := by
  induction free generalizing n p with
  | zero => rw [deHashLoop, if_neg (by omega)]
  | succ free ih =>
    rw [deHashLoop, if_neg (by omega)]
    exact ih (by omega) _

/-- A small number has few characters. -/
theorem deHashLoop_length {n : ℤ} {free k : ℕ} {p q : List Char} (h : deHashLoop free n p = some q)
    (hn : n < 64 ^ k) : q.length ≤ p.length + k := by
  induction free generalizing n k p with
  | zero =>
    rw [deHashLoop] at h
    split_ifs at h with h0
    cases h
    omega
  | succ free ih =>
    by_cases hneg : n < 0
    · rw [deHashLoop_neg hneg] at h
      cases h
    rw [deHashLoop] at h
    split_ifs at h with h0
    · cases h
      omega
    · cases k with
      | zero => omega
      | succ k =>
        have := ih h (k := k) (by rw [pow_succ] at hn; omega)
        rw [List.length_cons] at this
        omega

/-! ### Hashing -/

/-- The first characters of a text that does not start with the digit zero. -/
theorem head?_take {s : List Char} (h : s.head? ≠ some '_') :
    (s.take maxSexpTaglen).head? ≠ some '_' := by
  rw [List.head?_take, if_neg (by decide)]
  exact h

/-- `de_hash` gives back a text that does not start with the digit zero. -/
theorem deHash_pack_of_head {s : List Char} (h : ∀ c ∈ s, c ∈ chars) (hhead : s.head? ≠ some '_')
    (hlen : s.length ≤ maxSexpTaglen) : deHash (pack s) = some s := by
  have hloop := @deHashLoop_ofDigits s.reverse (fun c hc => h c (by simpa using hc))
    (by simpa using hhead) maxSexpTaglen (by simpa using hlen) []
  simpa [deHash, pack] using hloop

theorem deHash_pack {s : List Char} (h : IsTagName s) (hlen : s.length ≤ maxSexpTaglen) :
    deHash (pack s) = some s :=
  deHash_pack_of_head h.alphabet h.head hlen

/-- `LtagHash` packs the first ten characters, and its own check passes. -/
theorem tagHash_eq (notFound : Char → String) (mismatch : List Char → Option (List Char) → String)
    {s : List Char} (h : ∀ c ∈ s, c ∈ chars) (hhead : s.head? ≠ some '_') :
    tagHash notFound mismatch s = .ok (2 * pack (s.take maxSexpTaglen) + 1) := by
  have hloop := tagHashLoop_eq notFound h maxSexpTaglen []
  rw [List.nil_append] at hloop
  have hback := deHash_pack_of_head (fun c hc => h c (List.mem_of_mem_take hc)) (head?_take hhead)
    (by simp : (s.take maxSexpTaglen).length ≤ maxSexpTaglen)
  rw [show pack [] = 0 from rfl] at hloop
  simp only [tagHash, hloop, bind, Except.bind, hback, Option.map_some, List.take_take, min_self,
    if_true]
  rfl

theorem ltagHash_eq {name : String} (h : IsTagName name.toList) :
    ltagHash name = .ok (2 * pack (name.toList.take maxSexpTaglen) + 1) :=
  tagHash_eq _ _ h.alphabet h.head

/-! ### Collisions modulo `2^31` -/

/-- The codes of the first ten characters of a name, the last one first. -/
def tagDigits (s : List Char) : List ℕ := (s.take maxSexpTaglen).reverse.map code

/-- Of their first ten characters two names have the last five in common and the parity of the
code before them; absent characters count as `'_'`. -/
def SameTail (s t : List Char) : Prop :=
  (∀ i < 5, (tagDigits s).getD i 0 = (tagDigits t).getD i 0) ∧
    (tagDigits s).getD 5 0 % 2 = (tagDigits t).getD 5 0 % 2

instance (s t : List Char) : Decidable (SameTail s t) := inferInstanceAs (Decidable (_ ∧ _))

/-- Two numbers agree modulo `64^k * 2` when their last `k` digits do and the parity of the one
before. -/
theorem ofDigits_mod_eq_iff {r r' : List ℕ} (h : ∀ d ∈ r, d < 64) (h' : ∀ d ∈ r', d < 64) (k : ℕ) :
    Nat.ofDigits 64 r % (64 ^ k * 2) = Nat.ofDigits 64 r' % (64 ^ k * 2) ↔
      (∀ i < k, r.getD i 0 = r'.getD i 0) ∧ r.getD k 0 % 2 = r'.getD k 0 % 2 := by
  have hsplit : ∀ r : List ℕ, Nat.ofDigits 64 r = r.getD 0 0 + 64 * Nat.ofDigits 64 r.tail := by
    intro r
    cases r with
    | nil => rfl
    | cons d r => exact Nat.ofDigits_cons ..
  have hlt : ∀ r : List ℕ, (∀ d ∈ r, d < 64) → r.getD 0 0 < 64 := by
    intro r h
    cases r with
    | nil => decide
    | cons d r => exact h d List.mem_cons_self
  have htail : ∀ (r : List ℕ) i, r.tail.getD i 0 = r.getD (i + 1) 0 := by
    intro r i
    cases r <;> rfl
  induction k generalizing r r' with
  | zero =>
    rw [hsplit r, hsplit r']
    simp only [Nat.not_lt_zero, false_implies, implies_true, true_and]
    omega
  | succ k ih =>
    have hr := hlt r h
    have hr' := hlt r' h'
    have hmod : ∀ x y M, x < 64 → (x + 64 * y) % (64 * M) = x + 64 * (y % M) := by
      intro x y M hx
      rw [Nat.mod_mul, Nat.add_mul_mod_self_left, Nat.mod_eq_of_lt hx,
        Nat.add_mul_div_left _ _ (by omega), Nat.div_eq_of_lt hx, Nat.zero_add]
    have hrest := @ih r.tail r'.tail (fun d hd => h d (List.mem_of_mem_tail hd))
      (fun d hd => h' d (List.mem_of_mem_tail hd))
    simp only [htail] at hrest
    rw [hsplit r, hsplit r', show 64 ^ (k + 1) * 2 = 64 * (64 ^ k * 2) by ring, hmod _ _ _ hr,
      hmod _ _ _ hr']
    constructor
    · intro heq
      obtain ⟨h1, h2⟩ := hrest.1 (by omega)
      refine ⟨fun i hi => ?_, h2⟩
      cases i with
      | zero => omega
      | succ i => exact h1 i (by omega)
    · rintro ⟨h1, h2⟩
      rw [h1 0 (by omega), hrest.2 ⟨fun i hi => h1 (i + 1) (by omega), h2⟩]

/-- Names collide modulo `2^31` when their tails agree. -/
theorem pack_mod_eq_iff {s t : List Char} (hs : ∀ c ∈ s, c ∈ chars) (ht : ∀ c ∈ t, c ∈ chars) :
    pack (s.take maxSexpTaglen) % 2 ^ 31 = pack (t.take maxSexpTaglen) % 2 ^ 31 ↔ SameTail s t := by
  have hlt : ∀ {s : List Char}, (∀ c ∈ s, c ∈ chars) → ∀ d ∈ tagDigits s, d < 64 := by
    intro s hs d hd
    obtain ⟨c, hc, rfl⟩ := List.mem_map.1 hd
    exact code_lt (hs c (List.mem_of_mem_take (List.mem_reverse.1 hc)))
  exact ofDigits_mod_eq_iff (hlt hs) (hlt ht) 5

theorem pack_lt {s : List Char} (h : ∀ c ∈ s, c ∈ chars) : pack s < 64 ^ s.length := by
  have := Nat.ofDigits_lt_base_pow_length (b := 64) (l := s.reverse.map code) (by decide) (by
    intro d hd
    obtain ⟨c, hc, rfl⟩ := List.mem_map.1 hd
    exact code_lt (h c (List.mem_reverse.1 hc)))
  simpa [pack] using this

/-! ### The round trip -/

/-- The hash of a text, over the alphabet, that does not start with the digit zero: its value is less
than `2^60`, and the digits give its first ten characters back. -/
theorem tagHash_roundtrip {s : String} (h : ∀ c ∈ s.toList, c ∈ chars)
    (hhead : s.toList.head? ≠ some '_') :
    ∃ n : ℕ, runtimeLtagHash s = .ok (2 * n + 1) ∧ ltagHash s = .ok (2 * n + 1) ∧ n < 2 ^ 60 ∧
      deHash n = some (s.toList.take maxSexpTaglen) := by
  have htake : ∀ c ∈ s.toList.take maxSexpTaglen, c ∈ chars := fun c hc =>
    h c (List.mem_of_mem_take hc)
  have hlen : (s.toList.take maxSexpTaglen).length ≤ maxSexpTaglen := by simp
  refine ⟨_, tagHash_eq _ _ h hhead, tagHash_eq _ _ h hhead, ?_,
    deHash_pack_of_head htake (head?_take hhead) hlen⟩
  calc pack (s.toList.take maxSexpTaglen) < 64 ^ (s.toList.take maxSexpTaglen).length := pack_lt htake
    _ ≤ 64 ^ maxSexpTaglen := Nat.pow_le_pow_right (by decide) hlen
    _ = 2 ^ 60 := by decide

/-- **Tag hashing round-trips**, in both copies, and tells texts apart by their first ten
characters. -/
theorem tagHash_injective {s t : String} (hs : ∀ c ∈ s.toList, c ∈ chars)
    (hs' : s.toList.head? ≠ some '_') (ht : ∀ c ∈ t.toList, c ∈ chars)
    (ht' : t.toList.head? ≠ some '_') :
    (∃ n : ℕ, runtimeLtagHash s = .ok (2 * n + 1) ∧ ltagHash s = .ok (2 * n + 1) ∧ n < 2 ^ 60 ∧
      deHash n = some (s.toList.take maxSexpTaglen)) ∧
    (runtimeLtagHash s = runtimeLtagHash t ↔
      s.toList.take maxSexpTaglen = t.toList.take maxSexpTaglen) := by
  obtain ⟨n, hn, hn', hlt, hback⟩ := tagHash_roundtrip hs hs'
  obtain ⟨k, hk, -, -, hback'⟩ := tagHash_roundtrip ht ht'
  refine ⟨⟨n, hn, hn', hlt, hback⟩, ?_⟩
  constructor
  · intro heq
    rw [hn, hk] at heq
    have hnk : n = k := by
      have := Except.ok.inj heq
      omega
    rw [hnk, hback'] at hback
    exact (Option.some.inj hback).symm
  · intro heq
    rw [runtimeLtagHash, runtimeLtagHash, tagHash_eq _ _ hs hs', tagHash_eq _ _ ht ht', heq]

/-- Two names that differ in the eleventh character. -/
theorem tagHash_injective_long :
    (∃ n : ℕ, runtimeLtagHash "abcdefghijk" = .ok (2 * n + 1) ∧
      ltagHash "abcdefghijk" = .ok (2 * n + 1) ∧ n < 2 ^ 60 ∧
      deHash n = some ("abcdefghijk".toList.take maxSexpTaglen)) ∧
    (runtimeLtagHash "abcdefghijk" = runtimeLtagHash "abcdefghijl" ↔
      "abcdefghijk".toList.take maxSexpTaglen = "abcdefghijl".toList.take maxSexpTaglen) :=
  tagHash_injective (mem_chars_of_all (by decide)) (by decide) (mem_chars_of_all (by decide))
    (by decide)

end LamaRv
