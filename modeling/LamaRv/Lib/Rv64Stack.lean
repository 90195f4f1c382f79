import LamaRv.Lib.Rv64

/-!
# A stack of words in RV64

A stack that grows down through `sp`: pushing stores a word below `sp` and moves `sp` down.

* `below`: the address so many words below another one;
* `State.push`, `State.pushes`: pushing words; what is read back, what is left alone;
* `exec_loads`, `exec_pops`: restoring registers from fixed places and from the top;
* `get_exec_stores`, `mem_exec_stores`: storing registers at fixed places.
-/

namespace Rv64

open ByteMemory

/-- The stack pointer. -/
def spReg : Reg := 2

/-- The address `k` words below `a`. -/
def below (a : Word) (k : ℕ) : Word := a - BitVec.ofNat 64 (8 * k)

@[simp] theorem below_zero (a : Word) : below a 0 = a := by simp [below]

theorem below_below (a : Word) (j k : ℕ) : below (below a j) k = below a (j + k) := by
  unfold below
  rw [Nat.mul_add]
  bv_omega

/-- Going up from a lower word. -/
theorem below_add (a : Word) {j k : ℕ} (h : k ≤ j) :
    below a j + BitVec.ofNat 64 (8 * k) = below a (j - k) := by
  obtain ⟨d, rfl⟩ := Nat.exists_eq_add_of_le h
  unfold below
  rw [Nat.add_sub_cancel_left, Nat.mul_add]
  bv_omega

/-- The distance from a lower word up to a byte of a higher one. -/
theorem below_byte_sub (a : Word) {j n : ℕ} (k : ℕ) (h : j ≤ n) :
    below a j + BitVec.ofNat 64 k - below a n = BitVec.ofNat 64 (8 * (n - j) + k) := by
  obtain ⟨d, rfl⟩ := Nat.exists_eq_add_of_le h
  unfold below
  rw [Nat.add_sub_cancel_left, Nat.mul_add]
  bv_omega

theorem below_apart (a : Word) {j k : ℕ} (h : j ≠ k) (hj : j < 2 ^ 60) (hk : k < 2 ^ 60) :
    Apart (below a j) (below a k) := by
  unfold below
  rcases Nat.lt_or_gt_of_ne h with h | h <;> constructor <;> bv_omega

/-- A word at or above an address is apart from those below the address. -/
theorem below_apart_of_above {a x : Word} {k : ℕ} (hx : (x - a).toNat < 2 ^ 62) (hk : 1 ≤ k)
    (hsmall : k < 2 ^ 59) : Apart (below a k) x := by
  unfold below
  constructor <;> bv_omega

/-- How far a byte of a word above an address is from a word below the address. -/
theorem above_byte_sub {a x : Word} {i k : ℕ} (hx : (x - a).toNat < 2 ^ 62) (hi : i < 8)
    (hsmall : k < 2 ^ 59) :
    (x + BitVec.ofNat 64 i - below a k).toNat = (x - a).toNat + i + 8 * k := by
  unfold below
  bv_omega

theorem below_eq_ofInt (a : Word) (k : ℕ) : below a k = a + BitVec.ofInt 64 (-(8 * k)) := by
  unfold below
  rw [BitVec.sub_eq_add_neg, ← BitVec.ofInt_natCast, ← BitVec.ofInt_neg]
  push_cast
  rfl

attribute [irreducible] below

/-! ### Pushing -/

/-- Push a word. -/
def State.push (s : State) (v : Word) : State :=
  (s.store (below (s.get spReg) 1) v).set spReg (below (s.get spReg) 1)

/-- Push words, the first one first. -/
def State.pushes (s : State) (vs : List Word) : State := vs.foldl State.push s

@[simp] theorem State.get_sp_push (s : State) (v : Word) :
    (s.push v).get spReg = below (s.get spReg) 1 := by
  simp [State.push, spReg]

@[simp] theorem State.get_push_of_ne {r : Reg} (s : State) (v : Word) (h : r ≠ spReg) :
    (s.push v).get r = s.get r := by
  simp [State.push, h]

@[simp] theorem State.mem_push (s : State) (v : Word) :
    (s.push v).mem = ByteMemory.store s.mem (below (s.get spReg) 1) v := by
  simp [State.push]

@[simp] theorem State.pushes_nil (s : State) : s.pushes [] = s := rfl

@[simp] theorem State.pushes_cons (s : State) (v : Word) (vs : List Word) :
    s.pushes (v :: vs) = (s.push v).pushes vs := rfl

theorem State.get_sp_pushes (s : State) (vs : List Word) :
    (s.pushes vs).get spReg = below (s.get spReg) vs.length := by
  induction vs generalizing s with
  | nil => simp
  | cons v vs ih =>
    rw [State.pushes_cons, ih, State.get_sp_push, below_below, List.length_cons, Nat.add_comm]

theorem State.get_pushes_of_ne {r : Reg} (s : State) (vs : List Word) (h : r ≠ spReg) :
    (s.pushes vs).get r = s.get r := by
  induction vs generalizing s with
  | nil => rfl
  | cons v vs ih => rw [State.pushes_cons, ih, State.get_push_of_ne _ _ h]

/-- The memory after pushing depends on the memory and `sp`. -/
theorem State.mem_pushes_congr {s s' : State} (hmem : s'.mem = s.mem)
    (hsp : s'.get spReg = s.get spReg) (vs : List Word) :
    (s'.pushes vs).mem = (s.pushes vs).mem := by
  induction vs generalizing s s' with
  | nil => exact hmem
  | cons v vs ih =>
    refine ih ?_ ?_
    · rw [State.mem_push, State.mem_push, hmem, hsp]
    · rw [State.get_sp_push, State.get_sp_push, hsp]

/-- A byte of none of the pushed words is unchanged. -/
theorem State.mem_pushes {b : Word} (s : State) (vs : List Word)
    (h : ∀ j < vs.length, 8 ≤ (b - below (s.get spReg) (j + 1)).toNat) :
    (s.pushes vs).mem b = s.mem b := by
  induction vs generalizing s with
  | nil => rfl
  | cons v vs ih =>
    rw [State.pushes_cons, ih, State.mem_push, store_of_le (h 0 (by simp))]
    intro j hj
    rw [State.get_sp_push, below_below, Nat.add_comm 1]
    exact h (j + 1) (by simpa using hj)

/-- A word apart from all pushed words is unchanged. -/
theorem State.load_pushes_of_apart {a : Word} (s : State) (vs : List Word)
    (h : ∀ j < vs.length, Apart (below (s.get spReg) (j + 1)) a) :
    (s.pushes vs).load a = s.load a := by
  induction vs generalizing s with
  | nil => rfl
  | cons v vs ih =>
    have hstore : (s.push v).load a = s.load a := by
      unfold State.load
      rw [State.mem_push, ByteMemory.load_store_of_apart v (h 0 (by simp))]
    rw [State.pushes_cons, ih, hstore]
    intro j hj
    rw [State.get_sp_push, below_below, Nat.add_comm 1]
    exact h (j + 1) (by simpa using hj)

/-- A pushed word is read back. -/
theorem State.load_pushes {j : ℕ} (s : State) (vs : List Word) (hlen : vs.length < 2 ^ 59)
    (h : j < vs.length) : (s.pushes vs).load (below (s.get spReg) (j + 1)) = vs[j] := by
  induction vs generalizing s j with
  | nil => cases h
  | cons v vs ih =>
    rw [List.length_cons] at hlen h
    cases j with
    | zero =>
      rw [State.pushes_cons, State.load_pushes_of_apart]
      · unfold State.load
        exact ByteMemory.load_store_self _ _ _
      · intro k hk
        rw [State.get_sp_push, below_below]
        exact below_apart _ (by omega) (by omega) (by omega)
    | succ j =>
      have := ih (s.push v) (by omega) (j := j) (by omega)
      rw [State.get_sp_push, below_below, Nat.add_comm 1] at this
      exact this

/-! ### Restoring -/

section Restore

variable {sym : String → Word}

/-- Loads into distinct registers from places relative to another register. -/
theorem exec_loads (base : Reg) (ps : List (Reg × ℤ)) (s : State) (hnodup : (ps.map Prod.fst).Nodup)
    (hbase : base ∉ ps.map Prod.fst) (hzero : 0 ∉ ps.map Prod.fst) :
    (execLines sym (ps.map fun p => .op (.ld p.1 base p.2)) s).mem = s.mem ∧
    (∀ r ∉ ps.map Prod.fst,
      (execLines sym (ps.map fun p => .op (.ld p.1 base p.2)) s).get r = s.get r) ∧
    ∀ p ∈ ps, (execLines sym (ps.map fun p => .op (.ld p.1 base p.2)) s).get p.1 =
      s.load (s.get base + BitVec.ofInt 64 p.2) := by
  induction ps generalizing s with
  | nil => simp
  | cons p ps ih =>
    simp only [List.map_cons, List.nodup_cons, List.mem_cons, not_or] at hnodup hbase hzero
    obtain ⟨hmem, hother, hloaded⟩ := ih (s.set p.1 (s.load (s.get base + BitVec.ofInt 64 p.2)))
      hnodup.2 hbase.2 hzero.2
    rw [State.get_set_of_ne _ _ hbase.1] at hloaded
    refine ⟨by simpa [Op.exec] using hmem, ?_, ?_⟩
    · intro r hr
      simp only [List.map_cons, List.mem_cons, not_or] at hr
      simpa [Op.exec, State.get_set_of_ne _ _ hr.1] using hother r hr.2
    · intro q hq
      rcases List.mem_cons.1 hq with rfl | hq
      · simpa [Op.exec, State.get_set_self _ _ (Ne.symm hzero.1)] using hother q.1 hnodup.1
      · simpa [Op.exec] using hloaded q hq

/-- Loads into distinct registers from the top of the stack, one after the other. -/
theorem exec_pops (rs : List Reg) (s : State) (hnodup : rs.Nodup) (hsp : spReg ∉ rs)
    (hzero : 0 ∉ rs) :
    (execLines sym (rs.flatMap fun r => [.op (.ld r spReg 0), .op (.itype .addi spReg spReg 8)])
      s).mem = s.mem ∧
    (execLines sym (rs.flatMap fun r => [.op (.ld r spReg 0), .op (.itype .addi spReg spReg 8)])
      s).get spReg = s.get spReg + BitVec.ofNat 64 (8 * rs.length) ∧
    (∀ r ∉ rs, r ≠ spReg →
      (execLines sym (rs.flatMap fun r => [.op (.ld r spReg 0), .op (.itype .addi spReg spReg 8)])
        s).get r = s.get r) ∧
    ∀ i (h : i < rs.length),
      (execLines sym (rs.flatMap fun r => [.op (.ld r spReg 0), .op (.itype .addi spReg spReg 8)])
        s).get rs[i] = s.load (s.get spReg + BitVec.ofNat 64 (8 * i)) := by
  induction rs generalizing s with
  | nil => simp
  | cons r rs ih =>
    simp only [List.nodup_cons, List.mem_cons, not_or] at hnodup hsp hzero
    have hspz : spReg ≠ 0 := by decide
    obtain ⟨hmem, htop, hother, hloaded⟩ := ih
      ((s.set r (s.load (s.get spReg))).set spReg (s.get spReg + 8)) hnodup.2 hsp.2 hzero.2
    have hstep : execLines sym ((r :: rs).flatMap fun r =>
        [.op (.ld r spReg 0), .op (.itype .addi spReg spReg 8)]) s =
        execLines sym (rs.flatMap fun r => [.op (.ld r spReg 0), .op (.itype .addi spReg spReg 8)])
          ((s.set r (s.load (s.get spReg))).set spReg (s.get spReg + 8)) := by
      simp [Op.exec, IType.eval, State.get_set_of_ne _ _ hsp.1]
    rw [hstep]
    rw [State.get_set_self _ _ hspz] at htop hloaded
    refine ⟨by simpa using hmem, ?_, ?_, ?_⟩
    · rw [htop, List.length_cons, Nat.mul_add]
      bv_omega
    · intro q hq hqsp
      simp only [List.mem_cons, not_or] at hq
      rw [hother q hq.2 hqsp, State.get_set_of_ne _ _ hqsp, State.get_set_of_ne _ _ hq.1]
    · intro i hi
      cases i with
      | zero =>
        have := hother r hnodup.1 (Ne.symm hsp.1)
        rw [State.get_set_of_ne _ _ (Ne.symm hsp.1), State.get_set_self _ _ (Ne.symm hzero.1)] at this
        simpa using this
      | succ i =>
        have := hloaded i (by simpa using hi)
        rw [State.load_set, State.load_set] at this
        rw [List.getElem_cons_succ, this]
        congr 1
        rw [Nat.mul_add]
        bv_omega

end Restore

/-! ### Storing -/

/-- Stores relative to a register change no register. -/
theorem get_exec_stores (sym : String → Word) (base : Reg) (ps : List (Reg × ℤ)) (s : State) (r : Reg) :
    (execLines sym (ps.map fun p => .op (.sd p.1 base p.2)) s).get r = s.get r := by
  induction ps generalizing s with
  | nil => rfl
  | cons p ps ih =>
    rw [List.map_cons, execLines_cons, ih]
    exact State.get_store _ _ _ _

/-- A byte of none of the stored words is unchanged. -/
theorem mem_exec_stores {b : Word} (sym : String → Word) (base : Reg) (ps : List (Reg × ℤ)) (s : State)
    (h : ∀ p ∈ ps, 8 ≤ (b - (s.get base + BitVec.ofInt 64 p.2)).toNat) :
    (execLines sym (ps.map fun p => .op (.sd p.1 base p.2)) s).mem b = s.mem b := by
  induction ps generalizing s with
  | nil => rfl
  | cons p ps ih =>
    rw [List.map_cons, execLines_cons, ih]
    · exact store_of_le (h p List.mem_cons_self)
    · intro q hq
      exact h q (List.mem_cons_of_mem _ hq)

/-- A word apart from the stored words is unchanged. -/
theorem load_exec_stores_of_apart {a : Word} (sym : String → Word) (base : Reg) (ps : List (Reg × ℤ))
    (s : State) (h : ∀ p ∈ ps, Apart (s.get base + BitVec.ofInt 64 p.2) a) :
    (execLines sym (ps.map fun p => .op (.sd p.1 base p.2)) s).load a = s.load a := by
  induction ps generalizing s with
  | nil => rfl
  | cons p ps ih =>
    rw [List.map_cons, execLines_cons, ih]
    · exact State.load_store_of_apart _ _ (h p List.mem_cons_self)
    · intro q hq
      exact h q (List.mem_cons_of_mem _ hq)

/-- Registers stored at places that are apart are read back. -/
theorem load_exec_stores (sym : String → Word) (base : Reg) (ps : List (Reg × ℤ)) (s : State)
    (h : ps.Pairwise fun p q =>
      Apart (s.get base + BitVec.ofInt 64 p.2) (s.get base + BitVec.ofInt 64 q.2)) :
    ∀ p ∈ ps, (execLines sym (ps.map fun p => .op (.sd p.1 base p.2)) s).load
      (s.get base + BitVec.ofInt 64 p.2) = s.get p.1 := by
  induction ps generalizing s with
  | nil => simp
  | cons q ps ih =>
    obtain ⟨hq, hps⟩ := List.pairwise_cons.1 h
    intro p hp
    rw [List.map_cons, execLines_cons]
    rcases List.mem_cons.1 hp with rfl | hp
    · have hkept := load_exec_stores_of_apart sym base ps
        (s.store (s.get base + BitVec.ofInt 64 p.2) (s.get p.1)) fun q hq' => (hq q hq').symm
      exact hkept.trans (State.load_store_self _ _ _)
    · exact ih (s.store (s.get base + BitVec.ofInt 64 q.2) (s.get q.1)) hps p hp

end Rv64
