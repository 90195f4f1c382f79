import LamaRv.Compiler.Contract
import LamaRv.Compiler.Simulation

/-!
# Functions that call functions

A function whose operands are in registers, and that calls functions of this kind only, computes what
the stack machine computes: entered with its arguments in registers, it comes back to its return
address with the result in `a0`.  Recursion is as deep as there is room for on the stack.

The word at the `sp` of the entry is not kept, since the first local is there.  When the call needs no
alignment this is the word in which the caller has saved `a7`, so of the arguments the first seven are
good after a call.

* `InBody`: the states in the body of a function;
* `Outcome`: what a call leaves;
* `FunctionsFit`: what the code needs;
* `returns_computed`: whole functions.
-/

namespace LamaRv

open ByteMemory Rv64 CodeBuffer Compiler TaggedInt Simulations

/-! ### Words of the stack -/

section Areas

variable {base a b : Word} {gc n n' k : ℕ}

theorem Areas.mono (h : Areas base a gc n) (hn : n' ≤ n) : Areas base a gc n' :=
  ⟨h.globals, lt_of_le_of_lt hn h.locals, fun i hi j hj => h.apart i hi j (lt_of_lt_of_le hj hn)⟩

/-- The words from a lower one on. -/
theorem Areas.lower (h : Areas base a gc n) (hn : k + n' ≤ n) : Areas base (below a k) gc n' := by
  have := h.locals
  refine ⟨h.globals, by omega, fun i hi j hj => ?_⟩
  rw [below_below]
  exact h.apart i hi (k + j) (by omega)

theorem OutOfAreas.mono (h : OutOfAreas base a gc n b) (hn : n' ≤ n) : OutOfAreas base a gc n' b :=
  ⟨h.1, fun j hj => h.2 j (lt_of_lt_of_le hj hn)⟩

theorem OutOfAreas.lower (h : OutOfAreas base a gc n b) (hn : k + n' ≤ n) :
    OutOfAreas base (below a k) gc n' b := by
  refine ⟨h.1, fun j hj => ?_⟩
  rw [below_below]
  exact h.2 (k + j) (by omega)

/-- A byte of a word apart from another one. -/
theorem Apart.byte {x y : Word} (h : Apart x y) {i : ℕ} (hi : i < 8) :
    8 ≤ (y + BitVec.ofNat 64 i - x).toNat := by
  obtain ⟨h₁, h₂⟩ := h
  bv_omega

/-- The bytes of a word of the stack are above the words from a lower one on. -/
theorem Areas.outOfLower (h : Areas base a gc n) {j : ℕ} (hj : j < k) (hn : k + n' ≤ n) {i : ℕ}
    (hi : i < 8) : OutOfAreas base (below a k) gc n' (below a j + BitVec.ofNat 64 i) := by
  have := h.locals
  refine ⟨fun g hg => Apart.byte (h.apart g hg j (by omega)) hi, fun l hl => ?_⟩
  rw [below_below, below_byte_sub _ _ (by omega), BitVec.toNat_ofNat]
  omega

/-- The bytes of a word of the stack below the first ones. -/
theorem Areas.outOfUpper (h : Areas base a gc n) {j : ℕ} (hj : n' ≤ j) (hn : j < n) {i : ℕ}
    (hi : i < 8) : OutOfAreas base a gc n' (below a j + BitVec.ofNat 64 i) := by
  have := h.locals
  refine ⟨fun g hg => Apart.byte (h.apart g hg j hn) hi, fun l hl => ?_⟩
  exact Apart.byte (below_apart a (by omega) (by omega) (by omega)) hi

/-- A word is kept when its bytes are. -/
theorem load_eq_of_bytes {s s' : State} {x : Word}
    (h : ∀ i < 8, s'.mem (x + BitVec.ofNat 64 i) = s.mem (x + BitVec.ofNat 64 i)) :
    s'.load x = s.load x := load_congr h

end Areas

/-! ### Operands -/

section Operands

variable {s : State}

/-- The slots below the arguments. -/
theorem stackOf_append {xs ys : List Int63}
    (h : stackOf (xs ++ ys).length s = (xs ++ ys).map tagged) :
    stackOf ys.length s = ys.map tagged := by
  induction xs with
  | nil => exact h
  | cons x xs ih => exact ih (List.cons.inj h).2

/-- The slot of an argument. -/
theorem get_argSlot {args below : List Int63}
    (h : stackOf (args.reverse ++ below).length s = (args.reverse ++ below).map tagged)
    (hlen : (args.reverse ++ below).length ≤ 15) {i : ℕ} {v : Int63} (hv : args[i]? = some v) :
    s.get (slotReg (below.length + i)) = tagged v := by
  obtain ⟨hi, rfl⟩ := List.getElem?_eq_some_iff.1 hv
  -- the argument is at the top of the operands up to it
  have hsplit : args.reverse ++ below =
      (args.drop (i + 1)).reverse ++ (args[i] :: ((args.take i).reverse ++ below)) := by
    have heq : args = args.take i ++ args[i] :: args.drop (i + 1) := by
      rw [← List.drop_eq_getElem_cons hi, List.take_append_drop]
    calc args.reverse ++ below
        = (args.take i ++ args[i] :: args.drop (i + 1)).reverse ++ below := by rw [← heq]
      _ = _ := by
        rw [List.reverse_append, List.reverse_cons, List.append_assoc, List.append_assoc,
          List.singleton_append]
  have hdepth : ((args.take i).reverse ++ below).length = below.length + i := by
    rw [List.length_append, List.length_reverse, List.length_take_of_le (by omega), Nat.add_comm]
  rw [hsplit] at h hlen
  have hhead := (List.cons.inj (stackOf_append h)).1
  simp only [List.length_append, List.length_cons] at hlen
  rw [loc_read (by rw [List.length_append]; omega), hdepth] at hhead
  exact hhead

end Operands

/-! ### The machine -/

section Machine

variable {m : Module} {x y : ℕ × Data} {gc lc : ℕ}

theorem Machine.sized (h : Machine m x y) (hs : x.2.Sized gc lc) : y.2.Sized gc lc := by
  cases h with
  | next _ hexec _ =>
    obtain ⟨-, hglobals, hlocals⟩ := Instruction.execute_frame hexec
    exact ⟨hglobals.trans hs.globals, hlocals.trans hs.locals⟩
  | jump _ => exact hs
  | taken _ _ _ => exact ⟨hs.globals, hs.locals⟩
  | skipped _ _ _ _ => exact ⟨hs.globals, hs.locals⟩

/-- A function leaves as many globals as there were. -/
theorem Returns.globals_length {room : ℕ} {v : Int63} {G : List Int63} (h : Returns m room x v G) :
    G.length = x.2.globals.length := by
  induction h with
  | finish _ _ => rfl
  | step hstep _ ih => rw [ih, (hstep.sized ⟨rfl, rfl⟩).globals]
  | call _ _ _ _ _ _ _ _ _ ih ih' => rw [ih', Data.resume, ih, Data.enter]

end Machine

/-! ### `BEGIN` and `END` -/

section Ends

variable {base a : Word} {gc n locc : ℕ} {s s₀ t : State} (sym : String → Word)

/-- The prologue writes the words of the callee-saved registers and `fp` and `sp` only. -/
theorem exec_prologue_frame (hlocc : locc + 12 < 2 ^ 28) (hn : locc + 13 ≤ n) (s : State) :
    (∀ r, r ≠ Register.fp → r ≠ Register.sp → (execLines sym (prologue locc) s).get r = s.get r) ∧
      (execLines sym (prologue locc) s).get Register.sp = below (s.get Register.sp) (locc + 12) ∧
      ∀ b, (∀ j < n, 8 ≤ (b - below (s.get Register.sp) j).toNat) →
        (execLines sym (prologue locc) s).mem b = s.mem b := by
  refine ⟨fun r hfp hsp => ?_, ?_, fun b hb => ?_⟩
  · rw [prologue_eq, execLines_append]
    simp only [emitMv, emitAddi, emitIType, execLines_append, execLines_cons, execLines_nil,
      Line.exec_op, Op.exec]
    rw [State.get_set_of_ne _ _ hsp, State.get_set_of_ne _ _ hfp, get_exec_stores]
  · have hsp := (exec_prologue_pointers sym locc s).2
    rw [hsp, bodySp, ← add_toInt_neg _ hlocc]
    push_cast
    rfl
  · rw [prologue_eq, execLines_append]
    simp only [emitMv, emitAddi, emitIType, execLines_append, execLines_cons, execLines_nil,
      Line.exec_op, Op.exec, State.mem_set]
    refine mem_exec_stores sym Register.sp _ s fun p hp => ?_
    obtain ⟨⟨r, i⟩, hmem, rfl⟩ := List.mem_map.1 hp
    have hi : i < 13 := by
      have := List.mem_zipIdx hmem
      simp only [Register.saved, List.length_cons, List.length_nil] at this
      omega
    have haddr : s.get Register.sp + BitVec.ofInt 64 (toInt (-((i : ℕ) + locc) * wordSize)) =
        below (s.get Register.sp) (locc + i) := by
      rw [← add_toInt_neg _ (show locc + i < 2 ^ 28 by omega)]
      push_cast
      rw [add_comm (locc : ℤ)]
    simp only
    rw [haddr]
    exact hb _ (by omega)

end Ends

/-! ### The body of a function -/

/-- What control can come to from a function, in the functions that it calls too. -/
inductive Module.Within (m : Module) (b : ℕ) : ℕ → Prop
  | begins : Within m b b
  | succ {o o'} : Within m b o → m.Succ o o' → Within m b o'
  | call {o i t} : Within m b o → m.instructions.at? o = some i → i.callTarget = some t → Within m b t

/-- What the code of a function and of those that it calls needs: control comes to a `BEGIN` by calls
only; an instruction is compiled under the frame of its function; no `main` is called; and the
instructions are those of the fragment, `END`, and calls with the result in a callee-saved register. -/
structure FunctionsFit (m : Module) (log : List Emission) (b : ℕ) : Prop where
  entered : ∀ o o', m.Within b o → m.Succ o o' → ¬ m.BeginAt o'
  frames : ∀ e ∈ log, m.Within b e.offset → InOwnFrame m e.offset e.inst e.before
  begins : ∀ e ∈ log, m.Within b e.offset → e.inst.isBegin = true →
    ∃ id argc locc, e.inst = .beginInst id argc locc ∧ id ≠ .inl "main"
  body : ∀ e ∈ log, m.Within b e.offset → e.inst.isBegin = false → e.after.st.top ≤ 15 ∧
    (e.inst.InFragment 7 ∨ e.inst = .endInst ∨
      ∃ t argc, e.inst = .call (.inr t) argc ∧ argc ≤ 8 ∧ e.after.st.top ≤ 11)

/-- `s` is a state at the code of the machine's instruction, in the body of a function that was entered
in the state `s₀`, with the machine's data.  The function has `n` words of the stack, the one at the
`sp` of the entry included. -/
structure Inside (base : Word) (gc n : ℕ) (f : FrameInfo) (s₀ : State) (e : Emission) (x : ℕ × Data)
    (s : State) : Prop where
  offset : e.offset = x.1
  height : e.before.st.top = x.2.stack.length
  sized : x.2.Sized gc f.localsCount
  data : Matches 7 base (s₀.get Register.sp) x.2 s
  framed : Framed f.localsCount s₀ s
  sp : s.get Register.sp = below (s₀.get Register.sp) (f.localsCount + 12)
  ra : s.get Register.ra = s₀.get Register.ra
  gp : s₀.get Register.gp = base
  mem : ∀ b, OutOfAreas base (s₀.get Register.sp) gc n b → s.mem b = s₀.mem b

/-- What a function finds when it is called. -/
structure Called (base : Word) (gc : ℕ) (d : Data) (args : List Int63) (s : State) : Prop where
  count : d.globals.length = gc
  gp : s.get Register.gp = base
  globals : ∀ (i : ℕ) v, d.globals[i]? = some v → s.load (base + BitVec.ofNat 64 (8 * i)) = tagged v
  args : ∀ i < 7, ∀ v, args[i]? = some v → s.get (argReg i) = tagged v

/-- From `s`, in which it was entered with `n` words of the stack, a function has returned in `s'`. -/
structure Outcome (base : Word) (gc n : ℕ) (v : Int63) (G : List Int63) (s s' : State) : Prop where
  returned : Returned s s'
  gp : s'.get Register.gp = s.get Register.gp
  result : s'.get 10 = tagged v
  globals : ∀ (i : ℕ) v, G[i]? = some v → s'.load (base + BitVec.ofNat 64 (8 * i)) = tagged v
  mem : ∀ b, OutOfAreas base (s.get Register.sp) gc n b → s'.mem b = s.mem b

section Body

variable {m : Module} {log : List Emission} {c : Compiler} {E : Env} {f : FrameInfo} {e : Emission}
  {b₀ gc n : ℕ} {base : Word} {x y : ℕ × Data} {s s₀ : State}

theorem FunctionsFit.inRegisters (hfit : FunctionsFit m log b₀) {o : ℕ} (ho : m.Within b₀ o)
    (hnot : ¬ m.BeginAt o) (h : Completes m log c) : InRegisters m log 7 o := by
  intro e he hflow
  have hwithin : m.Within b₀ e.offset ∧ ¬ m.BeginAt e.offset := by
    clear he
    revert hflow
    generalize e.offset = o'
    intro hflow
    induction hflow with
    | refl => exact ⟨ho, hnot⟩
    | tail _ hs ih => exact ⟨ih.1.succ hs, hfit.entered _ _ ih.1 hs⟩
  have hb : e.inst.isBegin = false := by
    cases hi : e.inst.isBegin with
    | false => rfl
    | true => exact absurd ⟨_, h.1.heightInv.inst e he, hi⟩ hwithin.2
  obtain ⟨htop, hkind⟩ := hfit.body e he hwithin.1 hb
  refine ⟨htop, ?_⟩
  rcases hkind with hfrag | hend | ⟨t, argc, hcall, -⟩
  · exact .inl hfrag
  · exact .inr (.inr hend)
  · rw [hcall]
    exact .inr (.inl rfl)

/-- A step of the machine. -/
theorem Inside.step (h : Completes m log c) (hm : m.Linked) (hfit : FunctionsFit m log b₀)
    (hareas : Areas base (s₀.get Register.sp) gc n) (hn : f.localsCount + 13 ≤ n) (he : e ∈ log)
    (hw : m.Within b₀ e.offset) (hb : e.inst.isBegin = false)
    (hin : Inside base gc n f s₀ e x s) (hstep : Machine m x y) :
    ∃ e' ∈ log, ∃ s', m.Succ e.offset e'.offset ∧ e'.inst.isBegin = false ∧
      Steps E c.cb ⟨e.site, s⟩ ⟨e'.site, s'⟩ ∧ Inside base gc n f s₀ e' y s' := by
  have hnot : ¬ m.BeginAt e.offset := by
    rintro ⟨i, hat, hi⟩
    rw [Option.some.inj (hat.symm.trans (h.1.heightInv.inst e he)), hb] at hi
    cases hi
  have hlocals : f.localsCount ≤ n := by omega
  obtain ⟨⟨-, s'⟩, hsteps, e', he', -, rfl, hstands⟩ :=
    h.simulates (E := E) hm (show 7 ≤ 8 by decide) (hareas.mono hlocals)
      (hfit.inRegisters hw hnot h) x y ⟨e.site, s⟩
      ⟨e, he, .refl, rfl, hin.offset, hin.height, hin.sized, hin.data, .refl⟩ hstep
  have hsucc : m.Succ e.offset e'.offset := by
    rw [hin.offset, hstands.offset]
    exact hstep.succ
  have hspares := hstands.spares
  refine ⟨e', he', s', hsucc, ?_, hsteps.to_reflTransGen, hstands.offset, hstands.height,
    hstands.sized, hstands.data, ⟨hstands.data.fp, fun i hi => ?_⟩, hspares.sp.trans hin.sp,
    hspares.ra.trans hin.ra, hin.gp, fun b hb => ?_⟩
  · cases hi : e'.inst.isBegin with
    | false => rfl
    | true => exact absurd ⟨_, h.1.heightInv.inst e' he', hi⟩ (hfit.entered _ _ hw hsucc)
  · have hi12 : i < 12 := hi
    rw [← hin.framed.saved i hi, savedWord]
    exact load_eq_of_bytes fun k hk =>
      hspares.mem _ (hareas.outOfUpper (by omega) (by omega) hk)
  · rw [hspares.mem b (hb.mono hlocals), hin.mem b hb]

/-- The `END` of a function returns. -/
theorem Inside.finish (h : Completes m log c) (hfit : FunctionsFit m log b₀)
    (hlocals : f.localsCount + 12 < 2 ^ 28) (hname : f.functionName ≠ "main") (he : e ∈ log)
    (hw : m.Within b₀ e.offset) {o : ℕ} (howns : m.Owns o e.offset) (hframe : m.frameAt o = some f)
    {v : Int63} {vs : List Int63} (hin : Inside base gc n f s₀ e x s) (hend : e.inst = .endInst)
    (hstack : x.2.stack = v :: vs) {p : ℕ} (hp : E.codeAddr p = s₀.get Register.ra) :
    ∃ s', Steps E c.cb ⟨e.site, s⟩ ⟨p, s'⟩ ∧ Outcome base gc n v x.2.globals s₀ s' := by
  have hemit := h.1.siteInv.code e he
  rw [hend] at hemit
  obtain ⟨g, hg, hpos, hcode⟩ := emitEnd_code hemit
  obtain rfl : g = f := by
    have hown := hfit.frames e he hw (by rw [hend]; rfl) o howns
    exact Option.some.inj (hg.symm.trans (hown.trans hframe))
  rw [if_neg hname, List.append_nil] at hcode
  obtain ⟨l, hl⟩ : ∃ l, SymbolicStack.loc (e.before.st.top - 1) = l := ⟨_, rfl⟩
  rw [hl] at hcode
  have hwrites := writesOnly_end l g.localsCount
  obtain ⟨hrun, hat⟩ := h.steps (E := E) he hcode hwrites.straight s
  obtain ⟨hreturned, hresult⟩ := exec_end E.sym hlocals hin.framed l
  rw [if_neg hname, List.append_nil] at hreturned hresult
  have hmem := (noStores_end l g.localsCount).mem_exec E.sym s
  have hra := hwrites.get_exec E.sym (show Register.ra ∉ endRegs by decide) s
  have hret : Step E c.cb ⟨_, execLines E.sym (symbEmitMvToReg 10 l ++ epilogue g.localsCount) s⟩
      ⟨p, execLines E.sym (symbEmitMvToReg 10 l ++ epilogue g.localsCount) s⟩ :=
    .ret hat.head ((hra.trans hin.ra).trans hp.symm)
  refine ⟨_, (hrun.tail hret).to_reflTransGen, hreturned, ?_, ?_, fun i w hw => ?_, fun b hb => ?_⟩
  · rw [hwrites.get_exec E.sym (by decide), hin.data.gp, hin.gp]
  · have hbound := hin.data.height
    rw [hresult, returnValue, if_neg hname, ← hl, hin.height, loc_of_lt (by rw [hin.height] at hpos; omega)]
    exact hin.data.top hstack
  · rw [State.load, hmem]
    exact hin.data.globals i w hw
  · rw [hmem, hin.mem b hb]

/-- A function that is called goes through its `BEGIN`. -/
theorem Called.begin (h : Completes m log c) (hfit : FunctionsFit m log b₀) {id : FunctionId}
    {argc locc b : ℕ} {d : Data} {args : List Int63} (hd : Called base gc d args s)
    (hareas : Areas base (s.get Register.sp) gc n) (hn : locc + 13 ≤ n) (he : e ∈ log)
    (hw : m.Within b₀ e.offset) (hi : e.inst = .beginInst id argc locc) (hid : id ≠ .inl "main")
    (htop : e.before.st.top = 0) (hnext : m.instructions.next? e.offset = some b) :
    ∃ e' ∈ log, ∃ s', m.Succ e.offset e'.offset ∧ e'.inst.isBegin = false ∧
      Steps E c.cb ⟨e.site, s⟩ ⟨e'.site, s'⟩ ∧
      Inside base gc n ⟨Instruction.label id, locc, argc⟩ s e' (b, d.enter args locc) s' := by
  have hlocals := hareas.locals
  have hinst := h.1.heightInv.inst e he
  have hterm : e.inst.isTerminator = false := by rw [hi]; rfl
  obtain ⟨e', he', rfl, hprec⟩ := h.fall he hterm hnext
  have hsucc : m.Succ e.offset e'.offset := .fall hinst hterm hnext
  have hemit := h.1.siteInv.code e he
  have heff := emitCode_ok hemit
  rw [hi] at hemit
  -- the code is the prologue
  obtain ⟨L, hL, hcode⟩ : ∃ L : List Line, (∀ l ∈ L, l.straight ∧ l.exec E.sym s = s) ∧
      e.after.cb = e.before.cb ++ (L ++ prologue locc) := by
    have hmain : Instruction.label id ≠ "main" := by
      cases id with
      | inl name => exact fun heq => hid (congrArg Sum.inl heq)
      | inr offset => exact labelForIp_ne_main offset
    cases emitBegin_code hemit with
    | plain L _ hL hcode =>
      refine ⟨L, fun l hl => ?_, hcode⟩
      rcases hL with rfl | ⟨name, rfl⟩
      · cases hl
      · rw [List.mem_singleton.1 hl]
        exact ⟨rfl, rfl⟩
    | main _ _ hname => exact absurd hname hmain
  have hstraight : ∀ l ∈ L ++ prologue locc, l.straight :=
    List.forall_mem_append.2 ⟨fun l hl => (hL l hl).1, (ops_prologue locc).straight⟩
  have hnop : execLines E.sym L s = s := by
    clear hcode hstraight
    induction L with
    | nil => rfl
    | cons l L ih =>
      rw [execLines_cons, (hL l List.mem_cons_self).2]
      exact ih fun l hl => hL l (List.mem_cons_of_mem _ hl)
  obtain ⟨hrun, -⟩ := h.steps (E := E) he (V := []) (by rw [List.append_nil]; exact hcode) hstraight s
  rw [← h.end_site he hcode, ← hprec.site, execLines_append, hnop] at hrun
  obtain ⟨hregs, hsp, hmem⟩ := exec_prologue_frame E.sym (by omega) (show locc + 13 ≤ n from hn) s
  have hframed : Framed locc s (execLines E.sym (prologue locc) s) :=
    exec_prologue_framed E.sym (by omega) ⟨rfl, fun _ _ => rfl⟩
  have hload : ∀ i < gc, (execLines E.sym (prologue locc) s).load (base + BitVec.ofNat 64 (8 * i)) =
      s.load (base + BitVec.ofNat 64 (8 * i)) := by
    intro i hi
    exact load_eq_of_bytes fun k hk => hmem _ fun j hj => Apart.byte (hareas.apart i hi j hj).symm hk
  refine ⟨e', he', _, hsucc, ?_, hrun.to_reflTransGen, rfl, ?_, ⟨hd.count, List.length_replicate⟩, ?_,
    hframed, hsp, hregs _ (by decide) (by decide), hd.gp, fun b hb => hmem b hb.2⟩
  · cases hi' : e'.inst.isBegin with
    | false => rfl
    | true => exact absurd ⟨_, h.1.heightInv.inst e' he', hi'⟩ (hfit.entered _ _ hw hsucc)
  · have hmain : id.elim (· ≠ "main") fun _ => True := by
      cases id with
      | inl name => exact fun heq => hid (congrArg Sum.inl heq)
      | inr _ => trivial
    rw [hprec.st, heff.height, hi, htop]
    cases id with
    | inl name =>
      show 0 - 0 + (if name = "main" then 1 else 0) = 0
      rw [if_neg hmain]
    | inr _ => rfl
  · refine ⟨Nat.zero_le _, rfl, ?_, ?_, fun i v hv => ?_, fun i v hv => ?_, fun i hi v hv => ?_⟩
    · rw [hregs _ (by decide) (by decide), hd.gp]
    · exact hframed.fp
    · rw [hload i (hd.count ▸ (List.getElem?_eq_some_iff.1 hv).1), hd.globals i v hv]
    · rw [Data.enter] at hv
      have := List.eq_of_mem_replicate (List.mem_of_getElem? hv)
      cases this
    · have hfar : ∀ i < 8, argReg i ≠ Register.fp ∧ argReg i ≠ Register.sp := by decide
      obtain ⟨hfp, hsp'⟩ := hfar i (by omega)
      rw [hregs _ hfp hsp', hd.args i hi v hv]

end Body

/-! ### Calls -/

/-- The label of a call of a function at an offset. -/
theorem compileCall_label {c c' : Compiler} {t argc : ℕ} {before after : List Line} {label : String}
    (h : c.compileCall (.inr t) argc = .ok c')
    (htext : c'.cb = c.cb ++ (before ++ Line.call label :: after)) (hbefore : ∀ l ∈ before, l.straight) :
    label = labelForIp t := by
  obtain ⟨f, moves, st₁, pushes, st₂, c₁, label', -, hplace, hpush, hlabel, rfl⟩ := compileCall_parts h
  simp only [calleeLabel, bind_ok, return_ok] at hlabel
  obtain ⟨c₂, h₂, heq⟩ := hlabel
  cases heq
  obtain ⟨-, -, ⟨T, hT, hcomments⟩, -⟩ := addJumpTarget_ok h₂
  simp only [Compiler.finish, emit, emitCall, hT, List.append_assoc, List.cons_append,
    List.nil_append] at htext
  have htext := List.append_cancel_left htext
  rw [← List.append_assoc] at htext
  have hstraight : ∀ l ∈ callBefore c.st.spilledCount none
      (callAlignment f.localsCount c.st.spilledCount (argc + (none : Option ℤ).toList.length)) moves
      pushes ++ T, l.straight := by
    refine List.forall_mem_append.2
      ⟨(ops_callBefore (placeArgs_ok hplace).2.2 (pushArgs_ok hpush).2.2).straight, fun l hl => ?_⟩
    obtain ⟨x, rfl⟩ := hcomments l hl
    rfl
  obtain ⟨heq, -⟩ := split_unique htext.symm hbefore hstraight
  rw [heq] at htext
  exact (Line.call.inj (List.cons.inj (List.append_cancel_left htext)).1).symm

section Call

variable {base : Word} {gc n n' : ℕ} {w : Int63} {G : List Int63} {st : SymbolicStack} {argc : ℕ}
  {alignment : Bool} {s s₁ t u v : State}

/-- Where the called function is entered: the words below the `sp` of the caller hold what was saved. -/
structure CallState (st : SymbolicStack) (argc : ℕ) (alignment : Bool) (s t : State) : Prop where
  sp : t.get Register.sp = below (s.get Register.sp) (16 + (if alignment then 1 else 0))
  other : ∀ r, r ∉ Register.args → r ≠ Register.sp → r ≠ Register.temp1 → r ≠ Register.temp2 →
    t.get r = s.get r
  saved : ∀ j (h : j < savedRegs.length), t.load (below (s.get Register.sp) (j + 1)) = s.get savedRegs[j]
  mem : ∀ b, (∀ j < 16, 8 ≤ (b - below (s.get Register.sp) (j + 1)).toNat) → t.mem b = s.mem b
  args : ∀ i < argc, t.get (argReg i) = s.get (slotReg (st.top - argc + i))

theorem CallEntry.callState (h : CallEntry st argc none alignment s t) (hst : st.top ≤ 15)
    (hargc : argc ≤ 8) : CallState st argc alignment s t := by
  have hbase : saveBase s st.spilledCount = s.get Register.sp := by
    rw [SymbolicStack.spilledCount_eq, show st.top - 15 = 0 by omega, saveBase,
      add_toInt_neg _ (by omega), below_zero]
  have htotal : argc + (none : Option ℤ).toList.length - 8 = 0 := by
    rw [Option.toList_none, List.length_nil]
    omega
  obtain ⟨vs, hlen, hmem, -⟩ := h.mem
  rw [htotal] at hlen
  obtain rfl := List.length_eq_zero_iff.1 hlen
  rw [State.pushes_nil, State.mem_set] at hmem
  have hsp := h.sp
  rw [htotal, hbase, Nat.add_zero] at hsp
  refine ⟨hsp, h.other, fun j hj => ?_, fun b hb => ?_, fun i hi => ?_⟩
  · rw [State.load, hmem, ← hbase]
    exact savedState_load s _ hj
  · rw [hmem, savedState, hbase, State.mem_pushes, State.mem_set]
    intro j hj
    rw [List.length_map, savedRegs_length] at hj
    rw [get_spReg_set_sp]
    exact hb j hj
  · have hargs := h.args hst i (by simp; omega)
    simp only [Option.toList_none, List.length_nil, Nat.zero_add, Nat.sub_zero,
      Nat.min_eq_left hargc] at hargs
    exact hargs

/-- From `s` before a call to `v` after it: everything but the slot of the result and `a7` is back. -/
structure Back (n : ℕ) (result : Word) (s v : State) : Prop where
  sp : v.get Register.sp = s.get Register.sp
  ra : v.get Register.ra = s.get Register.ra
  gp : v.get Register.gp = s.get Register.gp
  fp : v.get Register.fp = s.get Register.fp
  args : ∀ i < 7, v.get (argReg i) = s.get (argReg i)
  slots : ∀ j < n, v.get (slotReg j) = s.get (slotReg j)
  result : v.get (slotReg n) = result

/-- What the call sequence saved is there when the called function returns, but for `a7`. -/
theorem Outcome.load_saved {ra : Word} (hcall : CallState st argc alignment s t)
    (hout : Outcome base gc n' w G (t.set Register.ra ra) u) (hareas : Areas base (s.get Register.sp) gc n)
    (hn : 16 + (if alignment then 1 else 0) + n' ≤ n) {j : ℕ} {r : Reg} (hj : j < 15)
    (hr : savedRegs[j]? = some r) : u.load (below (s.get Register.sp) (j + 1)) = s.get r := by
  obtain ⟨hlt, rfl⟩ := List.getElem?_eq_some_iff.1 hr
  rw [← hcall.saved j hlt]
  refine load_eq_of_bytes fun i hi => ?_
  have hsp : (t.set Register.ra ra).get Register.sp =
      below (s.get Register.sp) (16 + (if alignment then 1 else 0)) := by
    rw [State.get_set_of_ne _ _ (by decide), hcall.sp]
  have hkept := hout.mem (below (s.get Register.sp) (j + 1) + BitVec.ofNat 64 i) (by
    rw [hsp]
    exact hareas.outOfLower (by omega) hn hi)
  rw [hkept, State.mem_set]

/-- The call comes back. -/
theorem Outcome.back {k : ℕ} {ra : Word} (hcall : CallState st argc alignment s t) (hargc : argc ≤ 8)
    (hk : k ≤ 10) (hout : Outcome base gc n' w G (t.set Register.ra ra) u)
    (hareas : Areas base (s.get Register.sp) gc n) (hn : 16 + (if alignment then 1 else 0) + n' ≤ n)
    (hexit : CallExit argc alignment k (k + 1 - 15) u v) : Back k (tagged w) s v := by
  have hsp : u.get Register.sp =
      below (s.get Register.sp) (16 + (if alignment then 1 else 0) + (argc - 8)) := by
    rw [hout.returned.sp, State.get_set_of_ne _ _ (by decide), hcall.sp, show argc - 8 = 0 by omega,
      Nat.add_zero]
  have hdrop : dropBase argc alignment u = below (s.get Register.sp) 16 := dropBase_eq (by omega) hsp
  have hup : below (s.get Register.sp) 16 + BitVec.ofNat 64 (8 * 16) = s.get Register.sp := by
    rw [below_add _ le_rfl, Nat.sub_self, below_zero]
  have hload := fun {j r} => @Outcome.load_saved base gc n n' w G st argc alignment s t u ra hcall hout
    hareas hn j r
  have hslot : ∀ j ≤ 10, slotReg j ∈ Register.saved ∧ slotReg j ∉ savedRegs ∧
      slotReg j ≠ Register.sp := by decide
  have hloc : SymbolicStack.loc k = .register (slotReg k) := loc_of_lt (by omega)
  -- the registers that the function gives back
  have hkept : ∀ r ∈ Register.saved, r ≠ slotReg k → v.get r = s.get r := by
    have hfar : ∀ r ∈ Register.saved, r ∉ savedRegs ∧ r ≠ Register.sp ∧ r ≠ Register.ra ∧
        r ∉ Register.args ∧ r ≠ Register.temp1 ∧ r ≠ Register.temp2 := by decide
    intro r hr hne
    obtain ⟨h1, h2, h3, h4, h5, h6⟩ := hfar r hr
    rw [hexit.other r h1 h2, hloc, if_neg fun h => hne (Loc.register.inj h).symm,
      hout.returned.saved r hr, State.get_set_of_ne _ _ h3, hcall.other r h4 h2 h5 h6]
  refine ⟨?_, ?_, ?_, ?_, fun i hi => ?_, fun j hj => ?_, ?_⟩
  · rw [hexit.sp, hdrop, hup, show k + 1 - 15 = 0 by omega, add_toInt _ (by omega)]
    exact BitVec.add_zero _
  · rw [hexit.ra, hdrop, hup]
    exact hload (by decide) rfl
  · have hgp := hexit.temps 0 (by decide)
    rw [hdrop, hup] at hgp
    exact hgp.trans (hload (by decide) rfl)
  · exact hkept _ (by decide) (regs_avoid _ (slotReg_mem (k := k) (by omega))).2.2.2.2.1.symm
  · have hindex : ∀ i < 7, savedRegs[8 + i]? = some (argReg i) := by decide
    have harg := hexit.args (7 - i) (by omega)
    rw [show 7 - (7 - i) = i by omega, hdrop, below_add _ (by omega),
      show 16 - (7 - i) = 8 + i + 1 by omega] at harg
    rw [harg]
    exact hload (by omega) (hindex i hi)
  · exact hkept _ (hslot j (by omega)).1 (slotReg_ne (by omega) (by omega) (by omega))
  · obtain ⟨-, h2, h3⟩ := hslot k hk
    rw [hexit.other _ h2 h3, if_pos hloc, hout.result]

/-- What a call leaves of the memory. -/
theorem Outcome.mem_back {k spilled : ℕ} {ra : Word} (hcall : CallState st argc alignment s t)
    (hout : Outcome base gc n' w G (t.set Register.ra ra) u) (hexit : CallExit argc alignment k spilled u v)
    {b : Word} (hpushed : ∀ j < 16, 8 ≤ (b - below (s.get Register.sp) (j + 1)).toNat)
    (hb : OutOfAreas base (below (s.get Register.sp) (16 + (if alignment then 1 else 0))) gc n' b) :
    v.mem b = s.mem b := by
  have hsp : (t.set Register.ra ra).get Register.sp =
      below (s.get Register.sp) (16 + (if alignment then 1 else 0)) := by
    rw [State.get_set_of_ne _ _ (by decide), hcall.sp]
  rw [hexit.mem, hout.mem b (by rwa [hsp]), State.mem_set, hcall.mem b hpushed]

end Call

section Functions

variable {m : Module} {log : List Emission} {c : Compiler} {E : Env} {f : FrameInfo} {e e₁ : Emission}
  {b₀ gc n n' o o' t argc : ℕ} {base : Word} {s s₀ : State} {d : Data} {args rest G : List Int63}
  {w : Int63}

/-- A call of a function that returns. -/
theorem Inside.call (h : Completes m log c) (hfit : FunctionsFit m log b₀)
    (hareas : Areas base (s₀.get Register.sp) gc n) (hn : f.localsCount + 29 + n' ≤ n) (he : e ∈ log)
    (hw : m.Within b₀ e.offset) (hin : Inside base gc n f s₀ e (o, d) s)
    (hi : e.inst = .call (.inr t) argc) (hargc : argc ≤ 8) (hfits : e.after.st.top ≤ 11)
    (hlen : args.length = argc) (hstack : d.stack = args.reverse ++ rest) (hG : G.length = gc)
    (hlabel : labelPos c.cb (labelForIp t) = some e₁.site)
    (hcallee : ∀ s₁ p, Called base gc d args s₁ → Areas base (s₁.get Register.sp) gc n' →
      E.codeAddr p = s₁.get Register.ra →
      ∃ u, Steps E c.cb ⟨e₁.site, s₁⟩ ⟨p, u⟩ ∧ Outcome base gc n' w G s₁ u)
    (hnext : m.instructions.next? o = some o') :
    ∃ e' ∈ log, ∃ s', m.Succ e.offset e'.offset ∧ e'.inst.isBegin = false ∧
      Steps E c.cb ⟨e.site, s⟩ ⟨e'.site, s'⟩ ∧
      Inside base gc n f s₀ e' (o', d.resume rest G w) s' := by
  have hlocals := hareas.locals
  have hheight := hin.height
  have hbound := hin.data.height
  have hslots := hin.data.stack
  rw [hstack] at hslots hbound
  simp only [hstack] at hheight
  have hsum : (args.reverse ++ rest).length = argc + rest.length := by simp [hlen]
  have hemit := h.1.siteInv.code e he
  have hafter := (emitCode_ok hemit).height
  rw [hi] at hemit hafter
  have hemit : e.before.compileCall (.inr t) argc = .ok e.after := hemit
  have hafter : e.after.st.top = e.before.st.top - argc + 1 := hafter
  obtain ⟨-, g, before, label, after, -, -, hcode, hbefore, hafter', hexec⟩ :=
    compileCall_split hemit
  obtain rfl := compileCall_label hemit hcode hbefore
  obtain ⟨al, hal⟩ : ∃ al, callAlignment g.localsCount e.before.st.spilledCount
    (argc + (none : Option ℤ).toList.length) = al := ⟨_, rfl⟩
  rw [hal] at hexec
  -- up to the call
  obtain ⟨t₁, ht₁⟩ : ∃ t₁, execLines E.sym before s = t₁ := ⟨_, rfl⟩
  obtain ⟨hrun, hat⟩ := h.steps (E := E) he hcode hbefore s
  have hentry := (hexec E.sym s).1
  rw [ht₁] at hrun hentry
  have hcall := hentry.callState (by omega) hargc
  obtain ⟨q, hq⟩ : ∃ q, e.site + 2 + before.length = q := ⟨_, rfl⟩
  rw [hq] at hrun hat
  have hstep : Step E c.cb ⟨q, t₁⟩ ⟨e₁.site, t₁.set raReg (E.codeAddr (q + 1))⟩ := .call hat.head hlabel
  -- the called function
  have hareas' : Areas base (s.get Register.sp) gc (n - (f.localsCount + 12)) := by
    rw [hin.sp]
    exact hareas.lower (by omega)
  have hroom : 16 + (if al then 1 else 0) + n' ≤ n - (f.localsCount + 12) := by
    split_ifs <;> omega
  have hsp₁ : (t₁.set raReg (E.codeAddr (q + 1))).get Register.sp =
      below (s.get Register.sp) (16 + (if al then 1 else 0)) := by
    rw [State.get_set_of_ne _ _ (by decide), hcall.sp]
  have hcalled : Called base gc d args (t₁.set raReg (E.codeAddr (q + 1))) := by
    refine ⟨hin.sized.globals, ?_, fun i v hv => ?_, fun i hi7 v hv => ?_⟩
    · rw [State.get_set_of_ne _ _ (by decide),
        hcall.other _ (by decide) (by decide) (by decide) (by decide), hin.data.gp]
    · have hig : i < gc := hin.sized.globals ▸ (List.getElem?_eq_some_iff.1 hv).1
      rw [State.load_set, ← hin.data.globals i v hv]
      exact load_eq_of_bytes fun k hk => hcall.mem _ fun j hj =>
        Apart.byte (hareas'.apart i hig (j + 1) (by omega)).symm hk
    · have hiargc : i < argc := hlen ▸ (List.getElem?_eq_some_iff.1 hv).1
      have hfar : ∀ i < 8, argReg i ≠ raReg := by decide
      rw [State.get_set_of_ne _ _ (hfar i (by omega)), hcall.args i hiargc,
        show e.before.st.top - argc + i = rest.length + i by omega]
      exact get_argSlot hslots hbound hv
  obtain ⟨u, hsteps, hout⟩ := hcallee _ (q + 1) hcalled (by rw [hsp₁]; exact hareas'.lower hroom)
    (State.get_set_self _ _ (by decide)).symm
  -- after the call
  obtain ⟨v, hv⟩ : ∃ v, execLines E.sym after u = v := ⟨_, rfl⟩
  have hexit := (hexec E.sym u).2
  have hrest := Steps.lines (E := E) (s := u) hat.tail hafter'
  rw [hv] at hexit hrest
  rw [Option.toList_none, List.length_nil, Nat.add_zero,
    show e.before.st.top - argc = rest.length by omega] at hexit
  have hback := hout.back hcall hargc (by omega) hareas' hroom hexit
  have hkeep : ∀ j ≤ f.localsCount + 12, v.load (below (s₀.get Register.sp) j) =
      s.load (below (s₀.get Register.sp) j) := by
    intro j hj
    refine load_eq_of_bytes fun i hi => hout.mem_back hcall hexit (fun l hl => ?_) ?_
    · rw [hin.sp, below_below, below_byte_sub _ _ (by omega), BitVec.toNat_ofNat]
      omega
    · rw [hin.sp, below_below]
      exact hareas.outOfLower (by split_ifs <;> omega) (by split_ifs <;> omega) hi
  -- the next instruction
  have hinst := h.1.heightInv.inst e he
  have hterm : e.inst.isTerminator = false := by rw [hi]; rfl
  have hnext' : m.instructions.next? e.offset = some o' := by rw [hin.offset]; exact hnext
  obtain ⟨e', he', rfl, hprec⟩ := h.fall he hterm hnext'
  have hsucc : m.Succ e.offset e'.offset := .fall hinst hterm hnext'
  have hsite : e'.site = q + 1 + after.length := by
    rw [hprec.site, h.end_site he hcode, List.length_append, List.length_cons, ← hq]
    omega
  refine ⟨e', he', v, hsucc, ?_, ?_, rfl, ?_, ⟨hG, hin.sized.locals⟩, ?_, ⟨?_, fun i hi => ?_⟩, ?_,
    hback.ra.trans hin.ra, hin.gp, fun b hb => ?_⟩
  · cases hi' : e'.inst.isBegin with
    | false => rfl
    | true => exact absurd ⟨_, h.1.heightInv.inst e' he', hi'⟩ (hfit.entered _ _ hw hsucc)
  · rw [hsite]
    exact ((hrun.tail hstep).to_reflTransGen.trans hsteps).trans hrest
  · rw [hprec.st, hafter, Data.resume, List.length_cons]
    omega
  · refine ⟨?_, ?_, hback.gp.trans hin.data.gp, hback.fp.trans hin.data.fp, fun i x hx => ?_,
      fun i x hx => ?_, fun i hi x hx => ?_⟩
    · rw [Data.resume, List.length_cons]
      omega
    · have hlow := stackOf_append hslots
      have hrest15 : rest.length < 15 := by omega
      rw [Data.resume, List.length_cons, stackOf, loc_read hrest15, hback.result, List.map_cons, ← hlow]
      refine congrArg _ (stackOf_congr fun j hj => ?_)
      rw [loc_read (by omega), loc_read (by omega), hback.slots j hj]
    · rw [State.load, hexit.mem]
      exact hout.globals i x hx
    · have hil : i < f.localsCount := hin.sized.locals ▸ (List.getElem?_eq_some_iff.1 hx).1
      rw [hkeep i (by omega)]
      exact hin.data.locals i x hx
    · rw [hback.args i hi]
      exact hin.data.args i hi x hx
  · rw [hback.fp, hin.framed.fp]
  · have hi12 : i < 12 := hi
    rw [savedWord, hkeep _ (by omega)]
    exact hin.framed.saved i hi
  · rw [hback.sp, hin.sp]
  · have hpushed : ∀ j < 16, 8 ≤ (b - below (s.get Register.sp) (j + 1)).toNat := by
      intro j hj
      rw [hin.sp, below_below]
      exact hb.2 _ (by omega)
    have hlow : OutOfAreas base (below (s.get Register.sp) (16 + if al then 1 else 0)) gc n' b := by
      rw [hin.sp, below_below]
      exact hb.lower (by omega)
    rw [hout.mem_back hcall hexit hpushed hlow, hin.mem b hb]

theorem label_ne_main {id : FunctionId} (h : id ≠ .inl "main") : Instruction.label id ≠ "main" := by
  cases id with
  | inl name => exact fun heq => h (congrArg Sum.inl heq)
  | inr offset => exact labelForIp_ne_main offset

/-- A function whose body returns in the machine returns in the code.  The induction is on the calls
and steps of the machine. -/
theorem Inside.returns (h : Completes m log c) (hm : m.Linked) (hfit : FunctionsFit m log b₀) {room : ℕ}
    {x : ℕ × Data} (hret : Returns m room x w G) :
    ∀ {f : FrameInfo} {e : Emission} {s s₀ : State} {o n p : ℕ}, e ∈ log → m.Within b₀ e.offset →
      m.Owns o e.offset → m.frameAt o = some f → f.functionName ≠ "main" → e.inst.isBegin = false →
      Areas base (s₀.get Register.sp) gc n → f.localsCount + 13 + room ≤ n →
      Inside base gc n f s₀ e x s → E.codeAddr p = s₀.get Register.ra →
      ∃ s', Steps E c.cb ⟨e.site, s⟩ ⟨p, s'⟩ ∧ Outcome base gc n w G s₀ s' := by
  induction hret with
  | @finish room o' d v vs hat hstack =>
    intro f e s s₀ o n p he hw howns hframe hname hb hareas hn hin hp
    have hlocals := hareas.locals
    have hinst := h.1.heightInv.inst e he
    rw [hin.offset] at hinst
    exact hin.finish h hfit (by omega) hname he hw howns hframe (Option.some.inj (hinst.symm.trans hat))
      hstack hp
  | @step room x y v G hstep _ ih =>
    intro f e s s₀ o n p he hw howns hframe hname hb hareas hn hin hp
    obtain ⟨e', he', s', hsucc, hb', hsteps, hin'⟩ :=
      hin.step (E := E) h hm hfit hareas (by omega) he hw hb hstep
    obtain ⟨s'', hsteps', hout⟩ := ih he' (hw.succ hsucc) ⟨howns.1, howns.2.tail hsucc⟩ hframe hname hb'
      hareas hn hin' hp
    exact ⟨s'', hsteps.trans hsteps', hout⟩
  | @call room inner o' n' b t id argc locc d args rest w G v G' hat hlen hstack hbegin hnext hinner hroom
      hnext' _ ih ih' =>
    intro f e s s₀ o n p he hw howns hframe hname hb hareas hn hin hp
    have hinst := h.1.heightInv.inst e he
    have hi : e.inst = .call (.inr t) argc := by
      have hinst := hinst
      rw [hin.offset] at hinst
      exact Option.some.inj (hinst.symm.trans hat)
    have htarget : e.inst.callTarget = some t := by rw [hi]; rfl
    obtain ⟨hargc, hfits⟩ : argc ≤ 8 ∧ e.after.st.top ≤ 11 := by
      obtain ⟨-, hkind⟩ := hfit.body e he hw hb
      rw [hi] at hkind
      rcases hkind with hfrag | hend | ⟨t', argc', hcall, hargc, hfits⟩
      · exact hfrag.elim
      · cases hend
      · cases hcall
        exact ⟨hargc, hfits⟩
    -- the code of the called function
    have hreach := (h.1.reachInv.reach e he).call hinst htarget
    obtain ⟨q, hq⟩ := labelPos_of_mem (mem_labelsOf.1 (h.mem_labels hm hreach))
    obtain ⟨e₁, he₁, rfl, rfl⟩ := h.at_label hm hreach hq
    have hw₁ : m.Within b₀ e₁.offset := hw.call hinst htarget
    have hi₁ : e₁.inst = .beginInst id argc locc :=
      Option.some.inj ((h.1.heightInv.inst e₁ he₁).symm.trans hbegin)
    obtain ⟨id', argc', locc', hi₁', hid⟩ := hfit.begins e₁ he₁ hw₁ (by rw [hi₁]; rfl)
    obtain ⟨rfl, rfl, rfl⟩ : id = id' ∧ argc = argc' ∧ locc = locc' := by
      rw [hi₁] at hi₁'
      cases hi₁'
      exact ⟨rfl, rfl, rfl⟩
    have htop₁ : e₁.before.st.top = 0 := Option.some.inj
      ((h.1.heightInv.before e₁ he₁).symm.trans (h.done_call he htarget ⟨_, hbegin⟩))
    have hbegins : m.BeginAt e₁.offset := ⟨_, hbegin, rfl⟩
    have hframe₁ : m.frameAt e₁.offset = some ⟨Instruction.label id, locc, argc⟩ := by
      rw [Module.frameAt, hbegin]
      rfl
    have hG : G.length = gc := hinner.globals_length.trans hin.sized.globals
    have hcallee : ∀ s₁ p₁, Called base gc d args s₁ →
        Areas base (s₁.get Register.sp) gc (locc + 13 + inner) → E.codeAddr p₁ = s₁.get Register.ra →
        ∃ u, Steps E c.cb ⟨e₁.site, s₁⟩ ⟨p₁, u⟩ ∧ Outcome base gc (locc + 13 + inner) w G s₁ u := by
      intro s₁ p₁ hcalled hareas₁ hp₁
      obtain ⟨e₂, he₂, s₂, hsucc₂, hb₂, hsteps₂, hin₂⟩ := hcalled.begin (E := E) h hfit hareas₁ (by omega)
        he₁ hw₁ hi₁ hid htop₁ hnext
      obtain ⟨u, hsteps₃, hout⟩ := ih he₂ (hw₁.succ hsucc₂) ⟨hbegins, .single hsucc₂⟩ hframe₁
        (label_ne_main hid) hb₂ hareas₁ le_rfl hin₂ hp₁
      exact ⟨u, hsteps₂.trans hsteps₃, hout⟩
    obtain ⟨e', he', s', hsucc, hb', hsteps, hin'⟩ := hin.call h hfit hareas (by omega) he hw hi hargc
      hfits hlen hstack hG hq hcallee hnext'
    obtain ⟨s'', hsteps', hout⟩ := ih' he' (hw.succ hsucc) ⟨howns.1, howns.2.tail hsucc⟩ hframe hname hb'
      hareas hn hin' hp
    exact ⟨s'', hsteps.trans hsteps', hout⟩

/-- A function that returns in the machine returns in the code that starts with its `BEGIN`. -/
theorem Called.returns (h : Completes m log c) (hm : m.Linked) (he : e ∈ log)
    (hfit : FunctionsFit m log e.offset) {id : FunctionId} {locc room b p : ℕ}
    (hi : e.inst = .beginInst id argc locc) (htop : e.before.st.top = 0)
    (hnext : m.instructions.next? e.offset = some b)
    (hret : Returns m room (b, d.enter args locc) w G) (hcalled : Called base gc d args s)
    (hareas : Areas base (s.get Register.sp) gc (locc + 13 + room))
    (hp : E.codeAddr p = s.get Register.ra) :
    ∃ s', Steps E c.cb ⟨e.site, s⟩ ⟨p, s'⟩ ∧ Outcome base gc (locc + 13 + room) w G s s' := by
  have hinst := h.1.heightInv.inst e he
  obtain ⟨id', argc', locc', hi', hid⟩ := hfit.begins e he .begins (by rw [hi]; rfl)
  obtain ⟨rfl, rfl, rfl⟩ : id = id' ∧ argc = argc' ∧ locc = locc' := by
    rw [hi] at hi'
    cases hi'
    exact ⟨rfl, rfl, rfl⟩
  have hframe : m.frameAt e.offset = some ⟨Instruction.label id, locc, argc⟩ := by
    rw [Module.frameAt, hinst, hi]
    rfl
  obtain ⟨e', he', s', hsucc, hb, hsteps, hin⟩ := hcalled.begin (E := E) h hfit hareas (by omega) he
    .begins hi hid htop hnext
  obtain ⟨u, hsteps', hout⟩ := hin.returns h hm hfit hret he' (.succ .begins hsucc)
    ⟨⟨_, hinst, by rw [hi]; rfl⟩, .single hsucc⟩ hframe (label_ne_main hid) hb hareas le_rfl hp
  exact ⟨u, hsteps.trans hsteps', hout⟩

/-- **Functions.**  A function that the stack machine takes from its arguments to a result is taken there
by its code: from its first line, with the arguments in the argument registers, the globals in
memory and enough words of the stack below `sp`, it comes to its return address.  The result is in `a0`,
the globals are those that the machine leaves, `sp` and the callee-saved registers are back, and no
other byte of the memory is changed. -/
theorem returns_computed (h : Completes m log c) (hm : m.Linked) (he : e ∈ log)
    (hfit : FunctionsFit m log e.offset) {id : FunctionId} {locc room b p : ℕ}
    (hi : e.inst = .beginInst id argc locc) (htop : e.before.st.top = 0)
    (hnext : m.instructions.next? e.offset = some b)
    (hret : Returns m room (b, d.enter args locc) w G) (hcalled : Called base gc d args s)
    (hareas : Areas base (s.get Register.sp) gc (locc + 13 + room))
    (hp : E.codeAddr p = s.get Register.ra) :
    ∃ s', Steps E c.cb ⟨e.site, s⟩ ⟨p, s'⟩ ∧ Outcome base gc (locc + 13 + room) w G s s' :=
  hcalled.returns h hm he hfit hi htop hnext hret hareas hp

end Functions

/-! ### A recursive function -/

/-- A function that counts down to zero. -/
def countdown : Module where
  filename := "count.bc"
  instructions := ⟨[(0, .beginInst (.inl "count") 1 0), (9, .load ⟨.arg, 0⟩),
    (14, .conditionalJump 25 false), (19, .const 1), (24, .endInst), (25, .load ⟨.arg, 0⟩),
    (30, .const 3), (35, .binop .sub), (36, .call (.inr 0) 1), (45, .endInst)], by decide⟩
  strings := []
  globalAreaSize := 0
  publicSymbols := [("count", 0)]

/-- The frame of the function. -/
def countFrame : FrameInfo := ⟨"count", 0, 1⟩

/-- One call of `emit_code` under this frame. -/
structure CountStep (c : Compiler) (o : ℕ) (i : Instruction) (c₁ c₂ : Compiler) : Prop where
  opened : openInst c o i = .ok c₁
  code : i.emitCode c₁ = .ok c₂
  frame : i.isBegin = true ∨ c₁.currentFrame = some countFrame
  small : c₂.st.top ≤ 2

theorem countdown_code : ∃ log c, Completes countdown log c ∧
    (∃ e ∈ log, e.offset = 0 ∧ e.inst = .beginInst (.inl "count") 1 0 ∧ e.before.st.top = 0) ∧
      ∀ e ∈ log, (e.inst.isBegin = true ∨ e.before.currentFrame = some countFrame) ∧
        e.after.st.top ≤ 2 := by
  have hrun : ∃ c, start countdown = .ok c ∧ c.todo.lookup 0 = some 0 ∧
      (takeEntry c 0 0).shouldEmit 0 = .ok true ∧ ∃ c₁ d₁ c₂ d₂ c₃ d₃ c₄ d₄ c₅ d₅,
      CountStep (takeEntry c 0 0) 0 (.beginInst (.inl "count") 1 0) c₁ d₁ ∧ c₁.st.top = 0 ∧
      CountStep d₁ 9 (.load ⟨.arg, 0⟩) c₂ d₂ ∧ CountStep d₂ 14 (.conditionalJump 25 false) c₃ d₃ ∧
      CountStep d₃ 19 (.const 1) c₄ d₄ ∧ CountStep d₄ 24 .endInst c₅ d₅ ∧
      (d₅.emit (emitComment "============")).todo.lookup 25 = some 0 ∧
      (takeEntry (d₅.emit (emitComment "============")) 25 0).shouldEmit 25 = .ok true ∧
      ∃ c₆ d₆ c₇ d₇ c₈ d₈ c₉ d₉ c₀ d₀,
      CountStep (takeEntry (d₅.emit (emitComment "============")) 25 0) 25 (.load ⟨.arg, 0⟩) c₆ d₆ ∧
      CountStep d₆ 30 (.const 3) c₇ d₇ ∧ CountStep d₇ 35 (.binop .sub) c₈ d₈ ∧
      CountStep d₈ 36 (.call (.inr 0) 1) c₉ d₉ ∧ CountStep d₉ 45 .endInst c₀ d₀ ∧ d₀.todo = ∅ := by
    refine ⟨_, rfl, rfl, rfl, _, _, _, _, _, _, _, _, _, _, ⟨rfl, rfl, .inl rfl, ?_⟩, rfl,
      ⟨rfl, rfl, .inr rfl, ?_⟩, ⟨rfl, rfl, .inr rfl, ?_⟩, ⟨rfl, rfl, .inr rfl, ?_⟩,
      ⟨rfl, rfl, .inr rfl, ?_⟩, rfl, rfl, _, _, _, _, _, _, _, _, _, _, ⟨rfl, rfl, .inr rfl, ?_⟩,
      ⟨rfl, rfl, .inr rfl, ?_⟩, ⟨rfl, rfl, .inr rfl, ?_⟩, ⟨rfl, rfl, .inr rfl, ?_⟩,
      ⟨rfl, rfl, .inr rfl, ?_⟩, rfl⟩ <;> decide
  obtain ⟨c, hc, hl, hs, c₁, d₁, c₂, d₂, c₃, d₃, c₄, d₄, c₅, d₅, h₁, htop, h₂, h₃, h₄, h₅, hl', hs', c₆, d₆,
    c₇, d₇, c₈, d₈, c₉, d₉, c₀, d₀, h₆, h₇, h₈, h₉, h₀, htodo⟩ := hrun
  have hfirst := (((((Run.start hc).take hl hs).next h₁.opened h₁.code rfl).next h₂.opened h₂.code
    rfl).next h₃.opened h₃.code rfl).next h₄.opened h₄.code rfl
  have hsecond := (hfirst.last h₅.opened h₅.code rfl).take hl' hs'
  have hlast := ((((hsecond.next h₆.opened h₆.code rfl).next h₇.opened h₇.code rfl).next h₈.opened
    h₈.code rfl).next h₉.opened h₉.code rfl).last h₀.opened h₀.code rfl
  refine ⟨_, _, ⟨hlast, htodo⟩, ⟨⟨0, .beginInst (.inl "count") 1 0, c₁, d₁⟩, by simp, rfl, rfl, htop⟩, ?_⟩
  intro e he
  simp only [List.mem_cons, List.not_mem_nil, or_false] at he
  rcases he with rfl | rfl | rfl | rfl | rfl | rfl | rfl | rfl | rfl | rfl
  · exact ⟨h₀.frame, h₀.small⟩
  · exact ⟨h₉.frame, h₉.small⟩
  · exact ⟨h₈.frame, h₈.small⟩
  · exact ⟨h₇.frame, h₇.small⟩
  · exact ⟨h₆.frame, h₆.small⟩
  · exact ⟨h₅.frame, h₅.small⟩
  · exact ⟨h₄.frame, h₄.small⟩
  · exact ⟨h₃.frame, h₃.small⟩
  · exact ⟨h₂.frame, h₂.small⟩
  · exact ⟨h₁.frame, h₁.small⟩

theorem countdown_mem {o : ℕ} {i : Instruction} (h : countdown.instructions.at? o = some i) :
    (o, i) ∈ countdown.instructions.entries := InstMap.mem_of_at? h

theorem countdown_linked : countdown.Linked where
  targets := by
    intro o i t hat ht
    have hmem := countdown_mem hat
    simp only [countdown, List.mem_cons, Prod.mk.injEq, List.not_mem_nil, or_false] at hmem
    rcases hmem with ⟨-, rfl⟩ | ⟨-, rfl⟩ | ⟨-, rfl⟩ | ⟨-, rfl⟩ | ⟨-, rfl⟩ | ⟨-, rfl⟩ | ⟨-, rfl⟩ |
      ⟨-, rfl⟩ | ⟨-, rfl⟩ | ⟨-, rfl⟩ <;>
      simp only [Instruction.jumpTarget, Instruction.callTarget, reduceCtorEq, or_self,
        Option.some.injEq, or_false, false_or] at ht
    all_goals
      subst ht
      exact ⟨_, rfl⟩
  publics := by
    intro name o hs
    obtain ⟨rfl, rfl⟩ := Prod.mk.inj (List.mem_singleton.1 hs)
    exact ⟨1, 0, rfl⟩
  names := by
    intro name o argc locc hat
    have hmem := countdown_mem hat
    simp [countdown] at hmem
    simp [countdown, hmem]
  distinct := List.nodup_singleton _
  fresh := by
    intro s hs
    rw [List.mem_singleton.1 hs]
    have hne : ∀ p t, p.toList.head? ≠ some 'c' → p.toList ≠ [] → "count" ≠ p ++ t := by
      intro p t hp hp0 heq
      have h := append_ne_append (p := "count") (q := p) "" t (Ne.symm hp) (by decide) hp0
      rw [String.append_empty] at h
      exact h heq
    refine ⟨by decide, fun o => hne _ _ (by decide) (by decide), fun o heq => ?_⟩
    have h := congrArg (fun x => (x.toList.drop 1).head?) heq
    simp [String.toList_append] at h

/-- Control does not come back to the `BEGIN` but by the call. -/
theorem countdown_entered {o o' : ℕ} (h : countdown.Succ o o') : ¬ countdown.BeginAt o' := by
  rintro ⟨j, hj, hb⟩
  have h0 : o' = 0 := by
    have hmem := countdown_mem hj
    simp only [countdown, List.mem_cons, Prod.mk.injEq, List.not_mem_nil, or_false] at hmem
    rcases hmem with ⟨rfl, rfl⟩ | ⟨-, rfl⟩ | ⟨-, rfl⟩ | ⟨-, rfl⟩ | ⟨-, rfl⟩ | ⟨-, rfl⟩ | ⟨-, rfl⟩ |
      ⟨-, rfl⟩ | ⟨-, rfl⟩ | ⟨-, rfl⟩
    · rfl
    all_goals cases hb
  subst h0
  cases h with
  | fall hat ht hn =>
    have hmem := countdown_mem hat
    simp only [countdown, List.mem_cons, Prod.mk.injEq, List.not_mem_nil, or_false] at hmem
    rcases hmem with ⟨rfl, rfl⟩ | ⟨rfl, rfl⟩ | ⟨rfl, rfl⟩ | ⟨rfl, rfl⟩ | ⟨rfl, rfl⟩ | ⟨rfl, rfl⟩ |
      ⟨rfl, rfl⟩ | ⟨rfl, rfl⟩ | ⟨rfl, rfl⟩ | ⟨rfl, rfl⟩ <;> cases hn
  | jump hat ht =>
    have hmem := countdown_mem hat
    simp only [countdown, List.mem_cons, Prod.mk.injEq, List.not_mem_nil, or_false] at hmem
    rcases hmem with ⟨rfl, rfl⟩ | ⟨rfl, rfl⟩ | ⟨rfl, rfl⟩ | ⟨rfl, rfl⟩ | ⟨rfl, rfl⟩ | ⟨rfl, rfl⟩ |
      ⟨rfl, rfl⟩ | ⟨rfl, rfl⟩ | ⟨rfl, rfl⟩ | ⟨rfl, rfl⟩ <;> cases ht

theorem countdown_fit {log : List Emission} {c : Compiler} (h : Completes countdown log c)
    (hlog : ∀ e ∈ log, (e.inst.isBegin = true ∨ e.before.currentFrame = some countFrame) ∧
      e.after.st.top ≤ 2) : FunctionsFit countdown log 0 where
  entered := fun o o' _ hs => countdown_entered hs
  frames := by
    intro e he _ hb o howns
    have ho : o = 0 := by
      obtain ⟨⟨i, hat, hi⟩, -⟩ := howns
      have hmem := countdown_mem hat
      simp only [countdown, List.mem_cons, Prod.mk.injEq, List.not_mem_nil, or_false] at hmem
      rcases hmem with ⟨rfl, rfl⟩ | ⟨-, rfl⟩ | ⟨-, rfl⟩ | ⟨-, rfl⟩ | ⟨-, rfl⟩ | ⟨-, rfl⟩ | ⟨-, rfl⟩ |
        ⟨-, rfl⟩ | ⟨-, rfl⟩ | ⟨-, rfl⟩
      · rfl
      all_goals cases hi
    rcases (hlog e he).1 with hbegin | hframe
    · rw [hb] at hbegin
      cases hbegin
    · rw [hframe, ho]
      rfl
  begins := by
    intro e he _ hb
    have hmem := countdown_mem (h.1.heightInv.inst e he)
    simp only [countdown, List.mem_cons, Prod.mk.injEq, List.not_mem_nil, or_false] at hmem
    rcases hmem with ⟨-, hi⟩ | ⟨-, hi⟩ | ⟨-, hi⟩ | ⟨-, hi⟩ | ⟨-, hi⟩ | ⟨-, hi⟩ | ⟨-, hi⟩ |
      ⟨-, hi⟩ | ⟨-, hi⟩ | ⟨-, hi⟩
    · exact ⟨_, _, _, hi, by decide⟩
    all_goals
      rw [hi] at hb
      cases hb
  body := by
    intro e he _ hb
    obtain ⟨-, hsmall⟩ := hlog e he
    refine ⟨by omega, ?_⟩
    have hmem := countdown_mem (h.1.heightInv.inst e he)
    simp only [countdown, List.mem_cons, Prod.mk.injEq, List.not_mem_nil, or_false] at hmem
    rcases hmem with ⟨-, hi⟩ | ⟨-, hi⟩ | ⟨-, hi⟩ | ⟨-, hi⟩ | ⟨-, hi⟩ | ⟨-, hi⟩ | ⟨-, hi⟩ |
      ⟨-, hi⟩ | ⟨-, hi⟩ | ⟨-, hi⟩
    · rw [hi] at hb
      cases hb
    · rw [hi]
      exact .inl (.inr (.inr ⟨rfl, by decide⟩))
    · rw [hi]
      exact .inl trivial
    · rw [hi]
      exact .inl ⟨0, by decide, by decide, rfl⟩
    · exact .inr (.inl hi)
    · rw [hi]
      exact .inl (.inr (.inr ⟨rfl, by decide⟩))
    · rw [hi]
      exact .inl ⟨1, by decide, by decide, rfl⟩
    · rw [hi]
      exact .inl ⟨by decide, by decide⟩
    · exact .inr (.inr ⟨0, 1, hi, by decide, by omega⟩)
    · exact .inr (.inl hi)

/-- What the machine starts with. -/
def noData : Data := ⟨[], [], [], []⟩

/-- Counting down from zero. -/
theorem countdown_zero : Returns countdown 0 (9, noData.enter [0] 0) 0 [] := by
  refine .step (.next (i := .load ⟨.arg, 0⟩) rfl rfl rfl) (.step (.skipped rfl rfl (by decide) rfl) ?_)
  exact .step (.next (i := .const 1) rfl rfl rfl) (.finish rfl rfl)

/-- Counting down from one, with one call. -/
theorem countdown_one : Returns countdown 29 (9, noData.enter [1] 0) 0 [] := by
  refine .step (.next (i := .load ⟨.arg, 0⟩) rfl rfl rfl) (.step (.taken rfl rfl (by decide)) ?_)
  refine .step (.next (i := .load ⟨.arg, 0⟩) rfl rfl rfl) (.step (.next (i := .const 3) rfl rfl rfl) ?_)
  refine .step (.next (i := .binop .sub) rfl rfl rfl) ?_
  exact @Returns.call countdown 29 0 36 45 9 0 (.inl "count") 1 0 _ [0] [] 0 [] 0 [] rfl rfl rfl rfl rfl
    countdown_zero (by decide) rfl (.finish rfl rfl)

theorem returns_computed_countdown : ∃ log c, Completes countdown log c ∧ ∃ e ∈ log, ∃ s',
    Steps someEnv c.cb ⟨e.site, (⟨fun _ => 0, fun _ => 0⟩ : State).set 10 (tagged 1)⟩ ⟨0, s'⟩ ∧
      Outcome 0 0 42 0 [] ((⟨fun _ => 0, fun _ => 0⟩ : State).set 10 (tagged 1)) s' := by
  obtain ⟨log, c, h, ⟨e, he, ho, hi, htop⟩, hlog⟩ := countdown_code
  have hcalled : Called 0 0 noData [1] ((⟨fun _ => 0, fun _ => 0⟩ : State).set 10 (tagged 1)) := by
    refine ⟨rfl, rfl, fun i v hv => (by cases hv), fun i _ v hv => ?_⟩
    cases i with
    | zero =>
      rw [← Option.some.inj hv]
      rfl
    | succ i => cases hv
  exact ⟨log, c, h, e, he, returns_computed (b := 9) (p := 0) h countdown_linked he
    (ho ▸ countdown_fit h hlog) hi htop (by rw [ho]; rfl) countdown_one hcalled
    ⟨by decide, by decide, fun i hi => by cases hi⟩ rfl⟩

end LamaRv
