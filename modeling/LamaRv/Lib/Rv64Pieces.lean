import LamaRv.Lib.Rv64

/-!
# Runs of one function in RV64

A function whose calls are stepped over stays inside its own text.  The text is cut into pieces,
each with an assertion for its first line; what each piece keeps holds all through a run.

* `BodyStep`: one step, where calls are a relation between the states at entry and at return;
* `Safe`: what the rest of a piece needs of a state;
* `Pieces`: pieces of a text; `Pieces.run`: every configuration of a run is safe;
* `WritesOnly`, `NoStores`: what straight-line code leaves alone;
* `touched`: the addresses of its loads and stores.
-/

namespace Rv64

open ByteMemory

/-- The called functions: `K l s s'` when `l`, entered in the state `s`, returns in `s'`. -/
abbrev Calls := String → State → State → Prop

/-- One step of a function; a call is one step, and the function's own `ret` is the end. -/
inductive BodyStep (E : Env) (K : Calls) (T : Text) : Config → Config → Prop
  | straight {pc s l} : T[pc]? = some l → l.straight →
      BodyStep E K T ⟨pc, s⟩ ⟨pc + 1, l.exec E.sym s⟩
  | jump {pc s l p} : T[pc]? = some (.j l) → labelPos T l = some p → BodyStep E K T ⟨pc, s⟩ ⟨p, s⟩
  | taken {pc s eq a b l p} : T[pc]? = some (.branch eq a b l) → labelPos T l = some p →
      (s.get a == s.get b) = eq → BodyStep E K T ⟨pc, s⟩ ⟨p, s⟩
  | skipped {pc s eq a b l} : T[pc]? = some (.branch eq a b l) →
      (s.get a == s.get b) ≠ eq → BodyStep E K T ⟨pc, s⟩ ⟨pc + 1, s⟩
  | call {pc s l s'} : T[pc]? = some (.call l) →
      K l (s.set raReg (E.codeAddr (pc + 1))) s' → BodyStep E K T ⟨pc, s⟩ ⟨pc + 1, s'⟩

/-- Running the lines from `s` keeps to the rules: `Q` at every call and at `ret`, `J` at every
jump that is taken, `F` at the end. -/
def Safe (sym : String → Word) (K : Calls) (Q : Line → State → Prop) (J : String → State → Prop)
    (F : State → Prop) : List Line → State → Prop
  | [], s => F s
  | .call l :: ls, s => Q (.call l) s ∧
      ∀ ra s', K l (s.set raReg ra) s' → Safe sym K Q J F ls s'
  | .ret :: _, s => Q .ret s
  | .j l :: _, s => J l s
  | .branch eq a b l :: ls, s => ((s.get a == s.get b) = eq → J l s) ∧
      ((s.get a == s.get b) ≠ eq → Safe sym K Q J F ls s)
  | .op o :: ls, s => Safe sym K Q J F ls (o.exec sym s)
  | .label _ :: ls, s | .comment _ :: ls, s | .directive _ :: ls, s | .asciz _ :: ls, s =>
      Safe sym K Q J F ls s

section Safe

variable {sym : String → Word} {K : Calls} {Q Q' : Line → State → Prop} {J J' : String → State → Prop}
  {F F' : State → Prop} {l : Line} {ls T : List Line} {s : State}

theorem safe_cons_straight (h : l.straight) :
    Safe sym K Q J F (l :: ls) s ↔ Safe sym K Q J F ls (l.exec sym s) := by
  cases l <;> first | rfl | cases h

/-- Straight-line code at the front runs. -/
theorem safe_append (h : ∀ l ∈ T, l.straight) :
    Safe sym K Q J F (T ++ ls) s ↔ Safe sym K Q J F ls (execLines sym T s) := by
  induction T generalizing s with
  | nil => rfl
  | cons l T ih =>
    rw [List.cons_append, safe_cons_straight (h l List.mem_cons_self),
      ih fun l hl => h l (List.mem_cons_of_mem _ hl), execLines_cons]

theorem safe_of_straight (h : ∀ l ∈ T, l.straight) :
    Safe sym K Q J F T s ↔ F (execLines sym T s) := by
  have : Safe sym K Q J F (T ++ []) s ↔ Safe sym K Q J F [] (execLines sym T s) := safe_append h
  rwa [List.append_nil] at this

/-- Weaker rules are kept to. -/
theorem Safe.mono (h : Safe sym K Q J F ls s) (hQ : ∀ l s, Q l s → Q' l s)
    (hJ : ∀ l s, J l s → J' l s) (hF : ∀ s, F s → F' s) : Safe sym K Q' J' F' ls s := by
  induction ls generalizing s with
  | nil => exact hF s h
  | cons l ls ih =>
    cases l with
    | call l => exact ⟨hQ _ _ h.1, fun ra s' hk => ih (h.2 ra s' hk)⟩
    | ret => exact hQ _ _ h
    | j l => exact hJ _ _ h
    | branch eq a b l => exact ⟨fun heq => hJ _ _ (h.1 heq), fun hne => ih (h.2 hne)⟩
    | op o => exact ih (s := o.exec sym s) h
    | label _ | comment _ | directive _ | asciz _ => exact ih (s := s) h

/-- A step from the first of some lines goes to the next one or jumps. -/
theorem Safe.step {E : Env} {U : Text} {pc : ℕ} {cfg : Config} (h : Safe E.sym K Q J F (l :: ls) s)
    (hl : U[pc]? = some l) (hstep : BodyStep E K U ⟨pc, s⟩ cfg) :
    (cfg.pc = pc + 1 ∧ Safe E.sym K Q J F ls cfg.st) ∨
      ∃ name, labelPos U name = some cfg.pc ∧ J name cfg.st := by
  cases hstep with
  | straight hline hs =>
    obtain rfl := Option.some.inj (hl.symm.trans hline)
    exact .inl ⟨rfl, (safe_cons_straight hs).1 h⟩
  | jump hline hp =>
    obtain rfl := Option.some.inj (hl.symm.trans hline)
    exact .inr ⟨_, hp, h⟩
  | taken hline hp heq =>
    obtain rfl := Option.some.inj (hl.symm.trans hline)
    exact .inr ⟨_, hp, h.1 heq⟩
  | skipped hline hne =>
    obtain rfl := Option.some.inj (hl.symm.trans hline)
    exact .inl ⟨rfl, h.2 hne⟩
  | call hline hk =>
    obtain rfl := Option.some.inj (hl.symm.trans hline)
    exact .inl ⟨rfl, h.2 _ _ hk⟩

end Safe

/-- Straight-line code in a text runs as `execLines`. -/
theorem bodySteps_lines {E : Env} {K : Calls} {T : Text} {R : Config → Config → Prop}
    {ls : List Line} {p : ℕ} {s : State} (h : CodeAt T p ls) (hs : ∀ l ∈ ls, l.straight)
    (hR : ∀ {a b l}, T[a.pc]? = some l → l.straight → BodyStep E K T a b → R a b) :
    Relation.ReflTransGen R ⟨p, s⟩ ⟨p + ls.length, execLines E.sym ls s⟩ := by
  induction ls generalizing p s with
  | nil => exact .refl
  | cons l ls ih =>
    have hl := hs l List.mem_cons_self
    have h1 : R ⟨p, s⟩ ⟨p + 1, l.exec E.sym s⟩ := hR h.head hl (.straight h.head hl)
    have h2 := ih (s := l.exec E.sym s) h.tail fun x hx => hs x (List.mem_cons_of_mem _ hx)
    rw [List.length_cons, Nat.add_comm ls.length, ← Nat.add_assoc]
    exact .head h1 h2

/-! ### Pieces -/

/-- Pieces of a text. -/
structure Pieces (T : Text) (ι : Type) where
  start : ι → ℕ
  code : ι → List Line
  nonempty : ∀ i, code i ≠ []
  codeAt : ∀ i, CodeAt T (start i) (code i)

namespace Pieces

variable {T : Text} {ι : Type} (p : Pieces T ι)

/-- Where a jump from a piece has to lead, for assertions `P` at the starts. -/
def Jumps (P : ι → State → Prop) (l : String) (s : State) : Prop :=
  ∀ q, labelPos T l = some q → ∃ j, p.start j = q ∧ P j s

/-- Where the end of a piece has to lead. -/
def Falls (P : ι → State → Prop) (i : ι) (s : State) : Prop :=
  ∃ j, p.start j = p.start i + (p.code i).length ∧ P j s

/-- The configuration is at the start of the piece `i`, or inside of it with a safe rest. -/
def Within (E : Env) (K : ι → Calls) (P : ι → State → Prop) (Q : ι → State → Line → State → Prop)
    (i : ι) (s : State) (cfg : Config) : Prop :=
  cfg = ⟨p.start i, s⟩ ∨ ∃ k < (p.code i).length, cfg.pc = p.start i + k ∧
    Safe E.sym (K i) (Q i s) (p.Jumps P) (p.Falls P i) ((p.code i).drop k) cfg.st

/-- The steps of `R` from the piece `i` are steps of a function with the calls `K i`. -/
def StepsIn (E : Env) (K : ι → Calls) (R : Config → Config → Prop) : Prop :=
  ∀ i a b, R a b → p.start i ≤ a.pc → a.pc < p.start i + (p.code i).length → BodyStep E (K i) T a b

variable {E : Env} {K : ι → Calls} {P : ι → State → Prop} {Q : ι → State → Line → State → Prop}
  {R : Config → Config → Prop}

/-- A step stays within a piece or comes to the start of one. -/
theorem Within.step {p : Pieces T ι} {i : ι} {s : State} {cfg cfg' : Config}
    (h : p.Within E K P Q i s cfg) (hR : p.StepsIn E K R) (hstep : R cfg cfg')
    (hsafe : cfg = ⟨p.start i, s⟩ →
      Safe E.sym (K i) (Q i s) (p.Jumps P) (p.Falls P i) (p.code i) s) :
    p.Within E K P Q i s cfg' ∨ ∃ j, cfg'.pc = p.start j ∧ P j cfg'.st := by
  -- both cases are a place in the piece with a safe rest
  obtain ⟨k, hk, hpc, hrest⟩ : ∃ k < (p.code i).length, cfg.pc = p.start i + k ∧
      Safe E.sym (K i) (Q i s) (p.Jumps P) (p.Falls P i) ((p.code i).drop k) cfg.st := by
    rcases h with rfl | h
    · exact ⟨0, List.length_pos_iff.2 (p.nonempty i), rfl, hsafe rfl⟩
    · exact h
  have hline : T[cfg.pc]? = some (p.code i)[k] := by
    rw [hpc, p.codeAt i k hk, List.getElem?_eq_getElem hk]
  rw [List.drop_eq_getElem_cons hk] at hrest
  have hbody : BodyStep E (K i) T cfg cfg' := hR i cfg cfg' hstep (by omega) (by omega)
  rcases hrest.step hline hbody with ⟨hpc', hrest'⟩ | ⟨name, hpos, hjump⟩
  · by_cases hlast : k + 1 < (p.code i).length
    · exact .inl (.inr ⟨k + 1, hlast, by omega, hrest'⟩)
    · rw [List.drop_eq_nil_of_le (by omega)] at hrest'
      obtain ⟨j, hj, hP⟩ := hrest'
      exact .inr ⟨j, by omega, hP⟩
  · obtain ⟨j, hj, hP⟩ := hjump _ hpos
    exact .inr ⟨j, hj.symm, hP⟩

/-- **Runs.**  When every piece is safe from its assertion, wherever the run goes on from its start,
then every configuration of a run is within a piece that the run has entered with its assertion. -/
theorem run (hR : p.StepsIn E K R)
    (hsafe : ∀ i s cfg, P i s → R ⟨p.start i, s⟩ cfg →
      Safe E.sym (K i) (Q i s) (p.Jumps P) (p.Falls P i) (p.code i) s)
    {i : ι} {s : State} {cfg : Config} (hP : P i s)
    (hrun : Relation.ReflTransGen R ⟨p.start i, s⟩ cfg) :
    ∃ j t, Relation.ReflTransGen R ⟨p.start i, s⟩ ⟨p.start j, t⟩ ∧ P j t ∧
      Relation.ReflTransGen R ⟨p.start j, t⟩ cfg ∧ p.Within E K P Q j t cfg := by
  induction hrun with
  | refl => exact ⟨i, s, .refl, hP, .refl, .inl rfl⟩
  | @tail cfg cfg' hrun hstep ih =>
    obtain ⟨j, t, hreach, hj, hin, hwithin⟩ := ih
    have hnext := hwithin.step hR hstep (by
      rintro rfl
      exact hsafe j t cfg' hj hstep)
    rcases hnext with hnext | ⟨j', hpc, hj'⟩
    · exact ⟨j, t, hreach, hj, hin.tail hstep, hnext⟩
    · have heq : cfg' = ⟨p.start j', cfg'.st⟩ := by rw [← hpc]
      exact ⟨j', cfg'.st, heq ▸ hrun.tail hstep, hj', heq ▸ .refl, .inl heq⟩

end Pieces

/-! ### What straight-line code leaves alone -/

/-- The register that an instruction writes. -/
def Op.dst? : Op → Option Reg
  | .rtype _ d _ _ | .itype _ d _ _ | .pseudo _ d _ | .mv d _ | .li d _ | .la d _ | .ld d _ _ => some d
  | .sd _ _ _ => none
  | .sdLabel _ _ t => some t

/-- Instructions that write memory. -/
def Op.isStore : Op → Bool
  | .sd _ _ _ | .sdLabel _ _ _ => true
  | _ => false

/-- The lines are straight and write no register outside of `W`. -/
def WritesOnly (W : List Reg) (T : List Line) : Prop :=
  ∀ l ∈ T, l.straight ∧ ∀ o, l = .op o → ∀ r ∈ o.dst?, r ∈ W

/-- The lines do not write memory. -/
def NoStores (T : List Line) : Prop := ∀ l ∈ T, ∀ o, l = .op o → o.isStore = false

section Frame

variable {W : List Reg} {S T : List Line}

@[simp] theorem writesOnly_nil : WritesOnly W [] := by simp [WritesOnly]

@[simp] theorem writesOnly_append : WritesOnly W (S ++ T) ↔ WritesOnly W S ∧ WritesOnly W T :=
  List.forall_mem_append

@[simp] theorem writesOnly_op {o : Op} : WritesOnly W [.op o] ↔ ∀ r ∈ o.dst?, r ∈ W := by
  simp [WritesOnly, Line.straight]

@[simp] theorem writesOnly_comment {t : String} : WritesOnly W [.comment t] := by
  simp [WritesOnly, Line.straight]

theorem WritesOnly.straight (h : WritesOnly W T) : ∀ l ∈ T, l.straight := fun l hl => (h l hl).1

@[simp] theorem noStores_nil : NoStores [] := by simp [NoStores]

@[simp] theorem noStores_append : NoStores (S ++ T) ↔ NoStores S ∧ NoStores T :=
  List.forall_mem_append

@[simp] theorem noStores_op {o : Op} : NoStores [.op o] ↔ o.isStore = false := by
  simp [NoStores]

theorem Op.get_exec (sym : String → Word) {o : Op} {r : Reg} (h : ∀ d ∈ o.dst?, r ≠ d) (s : State) :
    (o.exec sym s).get r = s.get r := by
  cases o with
  | sd => rfl
  | sdLabel a l t => exact State.get_set_of_ne _ _ (h t rfl)
  | rtype _ d | itype _ d | pseudo _ d | mv d | li d | la d | ld d =>
    exact State.get_set_of_ne _ _ (h d rfl)

/-- Registers that are not written keep their values. -/
theorem WritesOnly.get_exec (h : WritesOnly W T) (sym : String → Word) {r : Reg} (hr : r ∉ W)
    (s : State) : (execLines sym T s).get r = s.get r := by
  induction T generalizing s with
  | nil => rfl
  | cons l T ih =>
    have hl := h l List.mem_cons_self
    rw [execLines_cons, ih fun l hl => h l (List.mem_cons_of_mem _ hl)]
    cases l with
    | op o => exact Op.get_exec sym (fun d hd (heq : r = d) => hr (heq ▸ hl.2 o rfl d hd)) s
    | _ => rfl

theorem Op.mem_exec (sym : String → Word) {o : Op} (h : o.isStore = false) (s : State) :
    (o.exec sym s).mem = s.mem := by
  cases o with
  | sd | sdLabel => cases h
  | _ => exact State.mem_set _ _ _

/-- Code without stores keeps the memory. -/
theorem NoStores.mem_exec (h : NoStores T) (sym : String → Word) (s : State) :
    (execLines sym T s).mem = s.mem := by
  induction T generalizing s with
  | nil => rfl
  | cons l T ih =>
    rw [execLines_cons, ih fun l hl => h l (List.mem_cons_of_mem _ hl)]
    cases l with
    | op o => exact Op.mem_exec sym (h _ List.mem_cons_self o rfl) s
    | _ => rfl

end Frame

/-! ### What straight-line code accesses -/

/-- The base and the offset of each load and store. -/
def accesses (T : List Line) : List (Reg × ℤ) :=
  T.filterMap fun
    | .op (.ld _ base off) => some (base, off)
    | .op (.sd _ base off) => some (base, off)
    | _ => none

theorem accesses_append (S T : List Line) : accesses (S ++ T) = accesses S ++ accesses T :=
  List.filterMap_append

/-- The address that a base and an offset name. -/
def State.addr (s : State) (p : Reg × ℤ) : Word := s.get p.1 + BitVec.ofInt 64 p.2

/-- The addresses that the loads and stores of some lines use, one after the other, when the lines are
executed. -/
def touched (sym : String → Word) : List Line → State → List Word
  | [], _ => []
  | l :: T, s => (accesses [l]).map s.addr ++ touched sym T (l.exec sym s)

section Accesses

variable {W : List Reg} {S T : List Line} (sym : String → Word)

theorem touched_append (s : State) :
    touched sym (S ++ T) s = touched sym S s ++ touched sym T (execLines sym S s) := by
  induction S generalizing s with
  | nil => rfl
  | cons l S ih =>
    rw [List.cons_append, touched, touched, ih, List.append_assoc]
    rfl

/-- Code that keeps its bases uses the addresses of the state before it. -/
theorem touched_of_writesOnly (h : WritesOnly W T) (hbase : ∀ p ∈ accesses T, p.1 ∉ W) (s : State) :
    touched sym T s = (accesses T).map s.addr := by
  induction T generalizing s with
  | nil => rfl
  | cons l T ih =>
    have hsplit : accesses (l :: T) = accesses [l] ++ accesses T := accesses_append [l] T
    have hl : WritesOnly W [l] := fun x hx => h x (List.mem_singleton.1 hx ▸ List.mem_cons_self)
    rw [touched, hsplit, List.map_append,
      ih (fun x hx => h x (List.mem_cons_of_mem _ hx)) fun p hp => hbase p (by simp [hsplit, hp])]
    congr 1
    refine List.map_congr_left fun p hp => ?_
    have hget := hl.get_exec sym (hbase p (by simp [hsplit, hp])) s
    exact congrArg (· + BitVec.ofInt 64 p.2) hget

end Accesses

end Rv64
