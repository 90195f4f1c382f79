import LamaRv.Compiler.FrontEnd
import LamaRv.Compiler.Functions

/-!
# The stack machine on the bytes

A machine that has no instruction map decodes what it comes to: the bytes at an offset tell the
instruction and the offset behind it.  On an accepted file, where jumps and calls lead to instructions,
it does what the machine on the map does.

* `Bytefile.fetch`: the instruction at an offset, read without what the reader has noted;
* `FileMachine`, `FileReturns`: one step, and a function up to its `END`;
* `file_machine_iff`: both machines have the same runs and the same results;
* `file_computed`: what the machine on the bytes computes is computed by the emitted code.
-/

namespace LamaRv

open TaggedInt Readers Relation Compiler Rv64 ByteMemory

/-- The instruction at an offset and the offset behind it. -/
def Bytefile.fetch (f : Bytefile) (o : ℕ) : Option (Instruction × ℕ) :=
  match (InstReader.readInst f).run ⟨⟨o, f.code.drop o⟩, f.publics.length, []⟩ with
  | .ok (some i, r) => some (i, r.cursor.offset)
  | _ => none

/-- One step of the machine, from an offset and its data. -/
inductive FileMachine (f : Bytefile) : ℕ × Data → ℕ × Data → Prop
  | next {o n i d d'} : f.fetch o = some (i, n) → i.execute d = some d' → FileMachine f (o, d) (n, d')
  | jump {o n t d} : f.fetch o = some (.jump t, n) → FileMachine f (o, d) (t, d)
  | taken {o n t zero d v vs} : f.fetch o = some (.conditionalJump t zero, n) → d.stack = v :: vs →
      (v == 0) = zero → FileMachine f (o, d) (t, { d with stack := vs })
  | skipped {o n t zero d v vs} : f.fetch o = some (.conditionalJump t zero, n) → d.stack = v :: vs →
      (v == 0) ≠ zero → FileMachine f (o, d) (n, { d with stack := vs })

/-- From an offset and its data a function comes to its `END`, with a result and some globals.  The
calls that it makes take up at most so many words of memory. -/
inductive FileReturns (f : Bytefile) : ℕ → ℕ × Data → Int63 → List Int63 → Prop
  | finish {room o n d v vs} : f.fetch o = some (.endInst, n) → d.stack = v :: vs →
      FileReturns f room (o, d) v d.globals
  | step {room x y v G} : FileMachine f x y → FileReturns f room y v G → FileReturns f room x v G
  | call {room inner o n b t id argc locc d args below w G v G'} :
      f.fetch o = some (.call (.inr t) argc, n) → args.length = argc → d.stack = args.reverse ++ below →
      f.fetch t = some (.beginInst id argc locc, b) → FileReturns f inner (b, d.enter args locc) w G →
      inner + locc + 29 ≤ room → FileReturns f room (n, d.resume below G w) v G' →
      FileReturns f room (o, d) v G'

/-- Jumps and calls lead to instructions. -/
def InstMap.Closed (m : InstMap) : Prop :=
  ∀ o i t, m.at? o = some i → (i.jumpTarget = some t ∨ i.callTarget = some t) → ∃ j, m.at? t = some j

section Files

variable {f : Bytefile} {m : Module} {o n : ℕ} {i j : Instruction} {d : Data} {x y : ℕ × Data}
  {v : Int63} {G : List Int63} {room : ℕ}

theorem fetch_of_read {r r' : InstReader} (hcursor : r.cursor = ⟨o, f.code.drop o⟩)
    (h : (InstReader.readInst f).run r = .ok (some i, r')) :
    ∃ j, f.fetch o = some (j, r'.cursor.offset) ∧ i.Alike j := by
  obtain ⟨x, t, hrun, hrel, hpassed, -⟩ :=
    blind_readInst r ⟨⟨o, f.code.drop o⟩, f.publics.length, []⟩ _ _ ⟨hcursor, le_rfl⟩ h
  cases hrel with
  | @some _ j hij =>
    refine ⟨j, ?_, hij⟩
    rw [Bytefile.fetch, hrun, hpassed]

theorem fetch_of_stop {r r' : InstReader} (hcursor : r.cursor = ⟨o, f.code.drop o⟩)
    (h : (InstReader.readInst f).run r = .ok (none, r')) : f.fetch o = none := by
  obtain ⟨x, t, hrun, hrel, -, -⟩ :=
    blind_readInst r ⟨⟨o, f.code.drop o⟩, f.publics.length, []⟩ _ _ ⟨hcursor, le_rfl⟩ h
  cases hrel
  rw [Bytefile.fetch, hrun]

/-- The bytes at an instruction of the map say the same as the map. -/
theorem Accepted.fetch (h : Accepted f m) (hat : m.instructions.at? o = some i) :
    ∃ j n, f.fetch o = some (j, n) ∧ i.Alike j ∧
      (m.instructions.next? o = some n ∨ m.instructions.next? o = none ∧ f.fetch n = none) := by
  obtain ⟨pre, post, hentries⟩ := List.append_of_mem (InstMap.mem_of_at? hat)
  obtain ⟨r, r', r'', rfl, hcounted, hread, hpost⟩ := h.item hentries
  obtain ⟨j, hfetch, hij⟩ := fetch_of_read (by rw [← hcounted.rest]) hread
  have hsuffix : (r.cursor.offset, i) :: post <:+ m.instructions.entries := ⟨pre, hentries.symm⟩
  have hnext := InstMap.next?_of_suffix hsuffix
  refine ⟨j, _, hfetch, hij, ?_⟩
  cases hpost with
  | stop hstop =>
    refine .inr ⟨hnext, fetch_of_stop ?_ hstop⟩
    rw [← (hcounted.step hread).rest]
  | item hitem hrest => exact .inl hnext

theorem Instruction.Alike.execute_eq (h : i.Alike j) (d : Data) : i.execute d = j.execute d := by
  cases i with
  | string ind str =>
    obtain ⟨ind', rfl⟩ := h
    rfl
  | beginInst id argc locc =>
    obtain ⟨id', rfl⟩ := h
    rfl
  | _ =>
    obtain rfl := h
    rfl

/-- Apart from strings and functions the instructions are the same. -/
theorem Instruction.Alike.eq (h : i.Alike j) (hij : i.Uncounted ∨ j.Uncounted) : i = j := by
  cases i with
  | string ind str =>
    obtain ⟨ind', rfl⟩ := h
    exact hij.elim False.elim False.elim
  | beginInst id argc locc =>
    obtain ⟨id', rfl⟩ := h
    exact hij.elim False.elim False.elim
  | _ => exact h.symm

/-- An instruction behind which there is another one. -/
theorem Accepted.next_of_fetch (h : Accepted f m) (hat : m.instructions.at? o = some i)
    (hfetch : f.fetch o = some (j, n)) (hn : (f.fetch n).isSome) :
    i.Alike j ∧ m.instructions.next? o = some n := by
  obtain ⟨j', n', hfetch', hij, hnext⟩ := h.fetch hat
  obtain ⟨rfl, rfl⟩ := Prod.mk.inj (Option.some.inj (hfetch.symm.trans hfetch'))
  rcases hnext with hnext | ⟨-, hnone⟩
  · exact ⟨hij, hnext⟩
  · rw [hnone] at hn
    cases hn

theorem Accepted.alike (h : Accepted f m) (hat : m.instructions.at? o = some i)
    (hfetch : f.fetch o = some (j, n)) : i.Alike j := by
  obtain ⟨j', n', hfetch', hij, -⟩ := h.fetch hat
  obtain ⟨rfl, -⟩ := Prod.mk.inj (Option.some.inj (hfetch.symm.trans hfetch'))
  exact hij

/-- A step that goes on to an instruction is one on the map. -/
theorem Accepted.machine (h : Accepted f m) (hclosed : m.instructions.Closed)
    (hat : m.instructions.at? o = some i) (hstep : FileMachine f (o, d) y) (hy : (f.fetch y.1).isSome) :
    Machine m (o, d) y ∧ ∃ j, m.instructions.at? y.1 = some j := by
  cases hstep with
  | next hfetch hexec =>
    obtain ⟨hij, hn⟩ := h.next_of_fetch hat hfetch hy
    rw [← hij.execute_eq] at hexec
    exact ⟨.next hat hexec hn, InstMap.at?_of_next? hn⟩
  | jump hfetch =>
    obtain rfl := (h.alike hat hfetch).eq (.inr trivial)
    exact ⟨.jump hat, hclosed _ _ _ hat (.inl rfl)⟩
  | taken hfetch hstack hv =>
    obtain rfl := (h.alike hat hfetch).eq (.inr trivial)
    exact ⟨.taken hat hstack hv, hclosed _ _ _ hat (.inl rfl)⟩
  | skipped hfetch hstack hv =>
    obtain ⟨hij, hn⟩ := h.next_of_fetch hat hfetch hy
    obtain rfl := hij.eq (.inr trivial)
    exact ⟨.skipped hat hstack hv hn, InstMap.at?_of_next? hn⟩

/-- The offset behind an instruction is the next one in the map. -/
theorem Accepted.fetch_next (h : Accepted f m) (hat : m.instructions.at? o = some i)
    (hn : m.instructions.next? o = some n) : ∃ j, f.fetch o = some (j, n) ∧ i.Alike j := by
  obtain ⟨j, n', hfetch, hij, hnext⟩ := h.fetch hat
  rcases hnext with hnext | ⟨hnone, -⟩
  · obtain rfl := Option.some.inj (hn.symm.trans hnext)
    exact ⟨j, hfetch, hij⟩
  · rw [hn] at hnone
    cases hnone

/-- A step on the map is one on the bytes. -/
theorem Accepted.fileMachine (h : Accepted f m) (hstep : Machine m x y) : FileMachine f x y := by
  cases hstep with
  | next hat hexec hn =>
    obtain ⟨j, hfetch, hij⟩ := h.fetch_next hat hn
    rw [hij.execute_eq] at hexec
    exact .next hfetch hexec
  | jump hat =>
    obtain ⟨j, n, hfetch, hij, -⟩ := h.fetch hat
    obtain rfl := hij.eq (.inl trivial)
    exact .jump hfetch
  | taken hat hstack hv =>
    obtain ⟨j, n, hfetch, hij, -⟩ := h.fetch hat
    obtain rfl := hij.eq (.inl trivial)
    exact .taken hfetch hstack hv
  | skipped hat hstack hv hn =>
    obtain ⟨j, hfetch, hij⟩ := h.fetch_next hat hn
    obtain rfl := hij.eq (.inl trivial)
    exact .skipped hfetch hstack hv

/-- Where a step can be made there is an instruction. -/
theorem FileMachine.fetch (h : FileMachine f x y) : (f.fetch x.1).isSome := by
  cases h with
  | next hfetch => rw [hfetch]; rfl
  | jump hfetch => rw [hfetch]; rfl
  | taken hfetch => rw [hfetch]; rfl
  | skipped hfetch => rw [hfetch]; rfl

theorem FileReturns.fetch (h : FileReturns f room x v G) : (f.fetch x.1).isSome := by
  cases h with
  | finish hfetch => rw [hfetch]; rfl
  | step hstep => exact hstep.fetch
  | call hfetch => rw [hfetch]; rfl

theorem Accepted.run (h : Accepted f m) (hclosed : m.instructions.Closed)
    (hat : m.instructions.at? x.1 = some i) (hrun : ReflTransGen (FileMachine f) x y)
    (hy : (f.fetch y.1).isSome) :
    ReflTransGen (Machine m) x y ∧ ∃ j, m.instructions.at? y.1 = some j := by
  induction hrun with
  | refl => exact ⟨.refl, i, hat⟩
  | tail _ hstep ih =>
    obtain ⟨hrun, j, hat'⟩ := ih hstep.fetch
    obtain ⟨hstep', hat''⟩ := h.machine hclosed hat' hstep hy
    exact ⟨hrun.tail hstep', hat''⟩

theorem Instruction.Alike.begin {id : FunctionId} {argc locc : ℕ}
    (h : i.Alike (.beginInst id argc locc)) : ∃ id', i = .beginInst id' argc locc := by
  cases i with
  | string ind str =>
    obtain ⟨ind', hj⟩ := h
    cases hj
  | beginInst id' argc' locc' =>
    obtain ⟨id'', hj⟩ := h
    cases hj
    exact ⟨id', rfl⟩
  | _ => cases h

/-- A function on the bytes returns what it returns on the map. -/
theorem Accepted.returns (h : Accepted f m) (hclosed : m.instructions.Closed)
    (hret : FileReturns f room x v G) :
    (∃ i, m.instructions.at? x.1 = some i) → Returns m room x v G := by
  induction hret with
  | finish hfetch hstack =>
    rintro ⟨i, hat⟩
    obtain rfl := (h.alike hat hfetch).eq (.inr trivial)
    exact .finish hat hstack
  | step hstep hrest ih =>
    rintro ⟨i, hat⟩
    obtain ⟨hstep', hat'⟩ := h.machine hclosed hat hstep hrest.fetch
    exact .step hstep' (ih hat')
  | call hfetch hlength hstack hbegin hinner hroom hrest ih ih' =>
    rintro ⟨i, hat⟩
    obtain ⟨hij, hn⟩ := h.next_of_fetch hat hfetch hrest.fetch
    obtain rfl := hij.eq (.inr trivial)
    obtain ⟨i', hat'⟩ := hclosed _ _ _ hat (.inr rfl)
    obtain ⟨hij', hn'⟩ := h.next_of_fetch hat' hbegin hinner.fetch
    obtain ⟨id', rfl⟩ := hij'.begin
    exact .call hat hlength hstack hat' hn' (ih (InstMap.at?_of_next? hn')) hroom hn
      (ih' (InstMap.at?_of_next? hn))

/-- A function on the map returns what it returns on the bytes. -/
theorem Accepted.fileReturns (h : Accepted f m) (hret : Returns m room x v G) :
    FileReturns f room x v G := by
  induction hret with
  | finish hat hstack =>
    obtain ⟨j, n, hfetch, hij, -⟩ := h.fetch hat
    obtain rfl := hij.eq (.inl trivial)
    exact .finish hfetch hstack
  | step hstep _ ih => exact .step (h.fileMachine hstep) ih
  | call hat hlength hstack hbegin hnext _ hroom hnext' _ ih ih' =>
    obtain ⟨j, hfetch, hij⟩ := h.fetch_next hat hnext'
    obtain rfl := hij.eq (.inl trivial)
    obtain ⟨j', hfetch', id', rfl⟩ := h.fetch_next hbegin hnext
    exact .call hfetch hlength hstack hfetch' ih hroom ih'

/-- **Bytes and map.**  On an accepted file, where jumps and calls lead to instructions, the machine
on the bytes and the one on the map have the same runs from instructions to instructions, and their
functions return the same. -/
theorem file_machine_iff {filename : String} {g : ℤ} (hmodule : f.toModule filename g = .ok m)
    (hclosed : m.instructions.Closed) (hat : m.instructions.at? x.1 = some i) :
    (∀ y, ReflTransGen (FileMachine f) x y ∧ (f.fetch y.1).isSome ↔
      ReflTransGen (Machine m) x y ∧ ∃ j, m.instructions.at? y.1 = some j) ∧
    ∀ room v G, FileReturns f room x v G ↔ Returns m room x v G := by
  have h := toModule_accepted hmodule
  refine ⟨fun y => ⟨fun ⟨hrun, hy⟩ => h.run hclosed hat hrun hy, ?_⟩, fun room v G => ?_⟩
  · rintro ⟨hrun, j, hat'⟩
    refine ⟨hrun.lift id fun _ _ => h.fileMachine, ?_⟩
    obtain ⟨j', n, hfetch, -⟩ := h.fetch hat'
    rw [hfetch]
    rfl
  · exact ⟨fun hret => h.returns hclosed hret ⟨i, hat⟩, h.fileReturns⟩

end Files

/-- Counting down from one, on the bytes. -/
theorem file_machine_iff_countdown : FileReturns countdownFile 29 (9, noData.enter [1] 0) 0 [] :=
  have hat : countdown.instructions.at? 9 = some (.load ⟨.arg, 0⟩) := rfl
  ((file_machine_iff countdownFile_module countdown_linked.targets hat).2 29 0 []).2 countdown_one

/-! ### From the bytes to the code -/

section Computed

variable {f : Bytefile} {m : Module} {log : List Emission} {c : Compiler} {E : Env}
  {filename name : String} {g : ℤ} {o q p b room gc argc locc : ℕ} {id : FunctionId} {d : Data}
  {args : List Int63} {w : Int63}
  {G : List Int63} {base : Word} {s : State}

/-- **From the bytes to the code.**  A public function of an accepted file that the machine on its bytes
takes from some arguments to a result is taken there by the emitted code, from its label to the return
address. -/
theorem file_computed (hmodule : f.toModule filename g = .ok m) (hsize : f.size < 2 ^ 64)
    (hlinkable : Linkable f m) (h : Completes m log c) (hpublic : (name, o) ∈ m.publicSymbols)
    (hfit : FunctionsFit m log o) (hbegin : f.fetch o = some (.beginInst id argc locc, b))
    (hret : FileReturns f room (b, d.enter args locc) w G) (hq : labelPos c.cb (labelForIp o) = some q)
    (hcalled : Called base gc d args s) (hareas : Areas base (s.get Register.sp) gc (locc + 13 + room))
    (hp : E.codeAddr p = s.get Register.ra) :
    ∃ s', Steps E c.cb ⟨q, s⟩ ⟨p, s'⟩ ∧ Outcome base gc (locc + 13 + room) w G s s' := by
  have haccepted := toModule_accepted hmodule
  have hm : m.Linked := haccepted.linked hsize hlinkable
  have hreach : m.Reachable o := .isPublic hpublic
  obtain ⟨e, he, rfl, rfl⟩ := h.at_label hm hreach hq
  have hat := h.1.heightInv.inst e he
  obtain ⟨hij, hnext⟩ := haccepted.next_of_fetch hat hbegin hret.fetch
  obtain ⟨id', hi⟩ := hij.begin
  have htop : e.before.st.top = 0 := Option.some.inj
    ((h.1.heightInv.before e he).symm.trans (h.done_public hpublic ⟨_, hat⟩))
  have hret' := haccepted.returns hlinkable.targets hret (InstMap.at?_of_next? hnext)
  exact hcalled.returns h hm he hfit hi htop hnext hret' hareas hp

end Computed

/-- The recursive function that counts down, from its label in the code. -/
theorem file_computed_countdown : ∃ log c, Completes countdown log c ∧ ∃ q s',
    labelPos c.cb (labelForIp 0) = some q ∧
    Steps someEnv c.cb ⟨q, (⟨fun _ => 0, fun _ => 0⟩ : State).set 10 (tagged 1)⟩ ⟨0, s'⟩ ∧
      Outcome 0 0 42 0 [] ((⟨fun _ => 0, fun _ => 0⟩ : State).set 10 (tagged 1)) s' := by
  obtain ⟨log, c, h, -, hlog⟩ := countdown_code
  have hpublic : ("count", 0) ∈ countdown.publicSymbols := List.mem_singleton_self _
  have hlinkable := (toModule_accepted countdownFile_module).linkable (by decide) countdown_linked
  obtain ⟨q, hq⟩ := labelPos_of_mem (mem_labelsOf.1 (h.mem_labels countdown_linked (.isPublic hpublic)))
  have hcalled : Called 0 0 noData [1] ((⟨fun _ => 0, fun _ => 0⟩ : State).set 10 (tagged 1)) := by
    refine ⟨rfl, rfl, fun i v hv => (by cases hv), fun i _ v hv => ?_⟩
    cases i with
    | zero =>
      rw [← Option.some.inj hv]
      rfl
    | succ i => cases hv
  have hret := (toModule_accepted countdownFile_module).fileReturns countdown_one
  have hbegin : countdownFile.fetch 0 = some (.beginInst (.inr 0) 1 0, 9) := by decide +kernel
  obtain ⟨s', hsteps, hout⟩ := file_computed (E := someEnv) (p := 0) countdownFile_module (by decide)
    hlinkable h hpublic (countdown_fit h hlog) hbegin hret hq hcalled
    ⟨by decide, by decide, fun i hi => by cases hi⟩ rfl
  exact ⟨log, c, h, q, s', hq, hsteps, hout⟩

end LamaRv
