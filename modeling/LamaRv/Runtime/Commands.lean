import LamaRv.Runtime.Copies

/-!
# Programs that make objects (`gc.c`, `runtime.c`)

A program performs the operations on a store, and calls the functions of the runtime that make objects.
Whatever it does, memory and the store agree, also where one of these functions collects garbage between
reading its arguments and writing them.

* `Maker.written`, `Maker.asides`, `Maker.Given`: what a function writes before it allocates, and reads
  afterwards;
* `Models.make`, `Models.refuses`: a call makes the object, or fails with the message;
* `command_refines`, `commands_refine`: every command, and every run of a program.
-/

namespace LamaRv.Gc

open Interaction WordBytes

/-! ### What the calls rely on -/

namespace Maker

/-- Memory, after the local variables have been written. -/
def written (F : Frames) (a : ℕ) (m : Mem) : Maker → Mem
  | .cons => consVector m F.locals a (2 * consTag.getD 0 + 1)
  | .clone => if !unboxed (m a) && decide (tag (m (toData (m a))) = 1) then m.set F.locals (m a) else m
  | _ => m

/-- The words that are not extra roots, and are read after the allocation. -/
def asides (F : Frames) (a : ℕ) (m : Mem) : Maker → List ℕ
  | .sexp n => [a + 8 * n]
  | .closure _ _ => [a]
  | .cons => [F.locals + 16]
  | .string text => a :: (List.range (text.length + 1)).map fun k => m a + k - (m a + k) % 8
  | _ => []

/-- The code and the C strings that a program passes, which a collection leaves alone. -/
def Given (F : Frames) (a : ℕ) (s : State) : Maker → Prop
  | .closure code n => s.mem a = code ∧ code < 2 ^ 64 ∧ Still s F.own (wordAddrs (a + 8) n) a
  | .string text => TextAt s.mem text (s.mem a) ∧
    ∀ b ∈ asides F a s.mem (.string text), Still s F.own [a] b
  | _ => True

/-- What a call relies on that makes an object for the variable `x`. -/
structure Hosts (f : Maker) (mmap : ℕ → Option ℕ) (A : Session) (s : State) (x : ℕ) (F : Frames) (a : ℕ)
    (locals : List (ℕ × Content)) (roots : List ℕ) (o : Obj) : Prop where
  inner : F.inner ≤ F.own
  innermost : F.innermost ≤ F.inner
  given : f.Given F a s
  outer : ∀ l ∈ locals, Outside s l.1
  calls : Calls mmap (A.write locals) { s with mem := f.written F a s.mem } F.own roots
    (x :: f.asides F a s.mem) (words (o.kind.bytes o.length))

end Maker

/-- What a command relies on. -/
def Command.Hosts (kernel : State → ℕ → Option ℕ) : Command → Session → State → Prop
  | .op o, A, s => Gc.Hosts kernel o A.toStore s
  | .make x f F a, A, s => Outside s x ∧ ∀ cs locals roots o, (f.args a).mapM A.var = some cs →
    f.eval A.obj F a cs = some (.ok (.object locals roots o)) →
      f.Hosts (kernel s) A s x F a locals roots o

/-- Memory holds a session. -/
structure Follows (A : Session) (s : State) : Prop where
  backs : Backs A.toStore s
  told : Told A s

section Make

variable {mmap : ℕ → Option ℕ} {A : Session} {ids : List ℕ} {place : ℕ → ℕ} {s : State} {m : Mem}
  {f : Maker} {F : Frames} {a i w x : ℕ} {cs : List Content} {c : Content} {message : String}
  {locals : List (ℕ × Content)} {roots asides : List ℕ} {o : Obj}

/-! ### Local variables -/

theorem Session.write_cons {l : ℕ × Content} :
    A.write (l :: locals) = (A.write [l]).write locals := rfl

theorem Session.write_count : (A.write locals).count = A.count := by
  induction locals generalizing A with
  | nil => rfl
  | cons l ls ih => rw [Session.write_cons, ih]; rfl

theorem Told.write (h : Told A s) : Told (A.write locals) { s with mem := m } :=
  ⟨h.top, h.bottom, h.extra⟩

/-- One local variable. -/
theorem Models.local (h : Models A.toStore ids place s) (hx : Outside s x) (hw : Denotes ids place c w) :
    Models (A.write [(x, c)]).toStore ids place { s with mem := s.mem.set x w } :=
  h.assign hx hw

theorem consTag_fits {t : ℤ} (h : consTag = some t) : Content.Fits t := by
  have htag : consTag = some 848787 := by decide
  obtain rfl := Option.some.inj (htag.symm.trans h)
  decide

/-- The vector of `Ls__Infix_58`. -/
theorem Models.consVector {v : ℕ} {t : ℤ} {d : Content} (h : Models A.toStore ids place s)
    (hout : ∀ l ∈ [(v, c), (v + 8, d), (v + 16, .int t)], Outside s l.1)
    (hc : Denotes ids place c (s.mem a)) (hd : Denotes ids place d (s.mem (a + 8)))
    (ht : Content.Fits t) :
    Models (A.write [(v, c), (v + 8, d), (v + 16, .int t)]).toStore ids place
      { s with mem := Gc.consVector s.mem v a (2 * t + 1) } := by
  simp only [List.forall_mem_cons] at hout
  obtain ⟨hfst, hsnd, hthird, -⟩ := hout
  have h₁ := Models.local h hfst hc
  have h₂ := Models.local h₁ hsnd hd
  exact Models.local h₂ hthird (denotes_box_of_fits ht)

/-- The variable of `Lclone`, and the copy. -/
theorem Models.copyString {v frame frame' frame'' : ℕ} (h : Models A.toStore ids place s) (ht : Told A s)
    (hvar : A.var a = some (.ref i)) (hkind : (A.obj i).kind = .string) (hout : Outside s v)
    (hle : frame' ≤ frame) (hle' : frame'' ≤ frame') (hs : Sized .string (A.obj i).text.length)
    (hc : Calls mmap (A.write [(v, .ref i)]) { s with mem := s.mem.set v (s.mem a) } frame [a, v] asides
      (words (LamaType.string.bytes (A.obj i).text.length))) :
    Gives (Gc.lclone mmap frame frame' frame'' a v s) (A.write [(v, .ref i)])
      { s with mem := s.mem.set v (s.mem a) } frame [a, v] asides
      (.ofBytes (A.obj i).text.length (A.obj i).byte) := by
  have hptr := (h.var _ _ hvar).2
  have hword : (s.mem.set v (s.mem a)) a = s.mem a := by
    by_cases heq : a = v
    · rw [heq, Mem.set_self]
    · exact Mem.set_of_ne _ _ heq
  -- the variable is not in the object
  have hheader : (s.mem.set v (s.mem a)) (toData (s.mem a)) = s.mem (toData (s.mem a)) := by
    have hbounds := h.bounds hptr.1
    have hinside := h.parsed.inside
    have htwo := (A.obj i).kind.two_le_words (A.obj i).length
    unfold Outside at hout
    rw [hptr.toData]
    exact Mem.set_of_ne _ _ (by omega)
  refine (Models.local h hout hptr).lclone_string ht.write ?_ ?_ hkind rfl hword.symm ?_ hle hle' hs hc
  · simp only [Session.write, Store.assign, List.foldl_cons, List.foldl_nil]
    by_cases heq : a = v
    · rw [heq, Function.update_self]
    · rwa [Function.update_of_ne heq]
  · simp [Session.write, Store.assign]
  · dsimp only
    rw [hword, hheader]

/-! ### Calls -/

/-- The contents of some variables. -/
theorem mapM_one {var : ℕ → Option Content} {y : ℕ} (h : [y].mapM var = some cs) :
    ∃ c, var y = some c ∧ cs = [c] := by
  rw [List.mapM_cons] at h
  obtain ⟨c, hc, h⟩ := Option.bind_eq_some_iff.1 h
  obtain rfl := Option.some.inj h
  exact ⟨c, hc, rfl⟩

theorem mapM_two {var : ℕ → Option Content} {y z : ℕ} (h : [y, z].mapM var = some cs) :
    ∃ c d, var y = some c ∧ var z = some d ∧ cs = [c, d] := by
  rw [List.mapM_cons] at h
  obtain ⟨c, hc, h⟩ := Option.bind_eq_some_iff.1 h
  obtain ⟨ds, hds, h⟩ := Option.bind_eq_some_iff.1 h
  obtain ⟨d, hd, rfl⟩ := mapM_one hds
  obtain rfl := Option.some.inj h
  exact ⟨c, d, hc, hd, rfl⟩

theorem mapM_three {var : ℕ → Option Content} {y z v : ℕ} (h : [y, z, v].mapM var = some cs) :
    ∃ c d e, var y = some c ∧ var z = some d ∧ var v = some e ∧ cs = [c, d, e] := by
  rw [List.mapM_cons] at h
  obtain ⟨c, hc, h⟩ := Option.bind_eq_some_iff.1 h
  obtain ⟨ds, hds, h⟩ := Option.bind_eq_some_iff.1 h
  obtain ⟨d, e, hd, he, rfl⟩ := mapM_two hds
  obtain rfl := Option.some.inj h
  exact ⟨c, d, e, hc, hd, he, rfl⟩

/-- **A call makes the object** of the store. -/
theorem Models.make (h : Models A.toStore ids place s) (ht : Told A s)
    (hcs : (f.args a).mapM A.var = some cs)
    (heval : f.eval A.obj F a cs = some (.ok (.object locals roots o))) (hs : Sized o.kind o.length)
    (hhosts : f.Hosts mmap A s x F a locals roots o) :
    Gives (f.call mmap F a s) (A.write locals) { s with mem := f.written F a s.mem } F.own roots
      (x :: f.asides F a s.mem) o := by
  have hcalls := hhosts.calls
  cases f with
  | array n =>
    cases heval
    exact h.barray ht hs hcalls hcs
  | sexp n =>
    simp only [Maker.eval] at heval
    split at heval
    · rename_i t htag
      cases heval
      exact h.bsexp ht hs (by simp [Maker.asides]) hcalls hcs htag
    · cases heval
  | closure code n =>
    cases heval
    obtain ⟨hcode, hlt, hstill⟩ := hhosts.given
    exact h.bclosure ht hs hcode hlt (by simp [Maker.asides]) hstill hcalls hcs
  | cons =>
    obtain ⟨c, d, hc, hd, rfl⟩ := mapM_two hcs
    simp only [Maker.eval] at heval
    obtain ⟨t, htag, heval⟩ := Option.map_eq_some_iff.1 heval
    cases heval
    have hwritten : Maker.written F a s.mem .cons = Gc.consVector s.mem F.locals a (2 * t + 1) := by
      rw [Maker.written, htag]
      rfl
    have h' := h.consVector (a := a) hhosts.outer (h.var _ _ hc).2 (h.var _ _ hd).2 (consTag_fits htag)
    rw [hwritten] at hcalls ⊢
    refine h'.lsInfix58 ht.write hs htag hhosts.inner (by simp [Maker.asides]) hcalls ⟨?_, ?_, ?_⟩ rfl <;>
      simp [Session.write, Store.assign]
  | makeArray =>
    obtain ⟨c, hc, rfl⟩ := mapM_one hcs
    cases c with
    | ref i => cases heval
    | int n =>
      obtain ⟨hn, heval⟩ := Option.ite_none_right_eq_some.1 heval
      cases heval
      obtain ⟨n, rfl⟩ := Int.eq_ofNat_of_zero_le hn
      exact h.lmakeArray ht hs hcalls (h.var _ _ hc).2
  | makeString =>
    obtain ⟨c, hc, rfl⟩ := mapM_one hcs
    cases c with
    | ref i => cases heval
    | int n =>
      obtain ⟨hn, heval⟩ := Option.ite_none_right_eq_some.1 heval
      cases heval
      obtain ⟨n, rfl⟩ := Int.eq_ofNat_of_zero_le hn
      exact h.lmakeString ht hs hcalls (h.var _ _ hc).2
  | string text =>
    obtain rfl := Option.some.inj hcs
    cases heval
    obtain ⟨htext, hstill⟩ := hhosts.given
    have hargs : a ∈ Maker.asides F a s.mem (.string text) := List.mem_cons_self
    have hwords : ∀ k ≤ text.length, s.mem a + k - (s.mem a + k) % 8 ∈
        Maker.asides F a s.mem (.string text) := fun k hk =>
      List.mem_cons_of_mem _ (List.mem_map.2 ⟨k, List.mem_range.2 (Nat.lt_succ_of_le hk), rfl⟩)
    exact h.bstring ht hs hhosts.inner htext ⟨List.mem_cons_of_mem _ hargs, hstill _ hargs⟩
      (fun k hk => ⟨List.mem_cons_of_mem _ (hwords k hk), hstill _ (hwords k hk)⟩) hcalls
  | append =>
    obtain ⟨c, d, hc, hd, rfl⟩ := mapM_two hcs
    cases c with
    | int n => cases heval
    | ref i =>
      simp only [Maker.eval] at heval
      split_ifs at heval with hi
      · cases heval
      · cases d with
        | int n => cases heval
        | ref j =>
          simp only at heval
          split_ifs at heval with hj
          · cases heval
          · cases heval
            exact h.liInfix4343 ht hc hd (not_not.1 hi) (not_not.1 hj) hs hcalls
  | substring =>
    obtain ⟨c, d, e, hc, hd, he, rfl⟩ := mapM_three hcs
    cases c with
    | int n => cases heval
    | ref i =>
      simp only [Maker.eval] at heval
      split_ifs at heval with hi
      · cases heval
      · split at heval
        · cases heval
        · cases heval
        · split_ifs at heval with hin hpos
          · cases heval
            exact h.lsubstring ht hc (not_not.1 hi) (h.var _ _ hd).2 (h.var _ _ he).2 hpos.1 hpos.2 hin.2
              hs hcalls
          · cases heval
  | clone =>
    obtain ⟨c, hc, rfl⟩ := mapM_one hcs
    cases c with
    | int n => cases heval
    | ref i =>
      have hptr := (h.var _ _ hc).2
      have hboxed := h.displays.not_unboxed hptr
      have htag := h.displays.tag_eq hptr
      simp only [Maker.eval] at heval
      split_ifs at heval with hi
      · cases heval
        have hwritten : Maker.written F a s.mem .clone = s.mem.set F.locals (s.mem a) := by
          rw [Maker.written, hboxed, htag, hi]
          rfl
        rw [hwritten] at hcalls ⊢
        exact h.copyString ht hc hi (hhosts.outer _ (List.mem_singleton_self _)) hhosts.inner
          hhosts.innermost hs hcalls
      · cases heval
        have htag' : decide ((A.obj i).kind.tag = 1) = false :=
          decide_eq_false fun heq => hi (LamaType.tag_inj.1 heq)
        have hwritten : Maker.written F a s.mem .clone = s.mem := by
          rw [Maker.written, hboxed, htag, htag']
          rfl
        rw [hwritten] at hcalls ⊢
        exact h.lclone ht hc hi hcalls

/-- The check of `Lsubstring`. -/
theorem Models.substring_outside {v : ℕ} {p l : ℤ} (h : Models A.toStore ids place s)
    (hptr : Denotes ids place (.ref i) v) {w w' : ℕ} (hp : Denotes ids place (.int p) w)
    (hl : Denotes ids place (.int l) w') (hin : ¬ (0 ≤ p + l ∧ p + l ≤ (A.obj i).length)) :
    ¬ toSizeT (p + l) ≤ (A.obj i).length := by
  have hlength := ((h.shows i hptr.1).sized).length
  have hpb := unbox_bounds w
  have hlb := unbox_bounds w'
  rw [hp.2.2] at hpb
  rw [hl.2.2] at hlb
  rwa [toSizeT_le_iff (by omega) (by omega) (by omega)]

/-- **A call fails** with the message of the store. -/
theorem Models.refuses (h : Models A.toStore ids place s) (hcs : (f.args a).mapM A.var = some cs)
    (heval : f.eval A.obj F a cs = some (.error message)) :
    f.call mmap F a s = some (.error message) := by
  cases f with
  | array n => cases heval
  | sexp n =>
    simp only [Maker.eval] at heval
    split at heval <;> cases heval
  | closure code n => cases heval
  | cons =>
    obtain ⟨c, d, -, -, rfl⟩ := mapM_two hcs
    simp only [Maker.eval] at heval
    obtain ⟨t, -, heval⟩ := Option.map_eq_some_iff.1 heval
    cases heval
  | makeArray =>
    obtain ⟨c, hc, rfl⟩ := mapM_one hcs
    cases c with
    | int n =>
      obtain ⟨-, heval⟩ := Option.ite_none_right_eq_some.1 heval
      cases heval
    | ref i =>
      cases heval
      simp [Maker.call, Gc.lmakeArray, h.displays.not_unboxed (h.var _ _ hc).2]
  | makeString =>
    obtain ⟨c, hc, rfl⟩ := mapM_one hcs
    cases c with
    | int n =>
      obtain ⟨-, heval⟩ := Option.ite_none_right_eq_some.1 heval
      cases heval
    | ref i =>
      cases heval
      simp [Maker.call, Gc.lmakeString, h.displays.not_unboxed (h.var _ _ hc).2]
  | string text =>
    obtain rfl := Option.some.inj hcs
    cases heval
  | append =>
    obtain ⟨c, d, hc, hd, rfl⟩ := mapM_two hcs
    cases c with
    | int n => cases heval
    | ref i =>
      simp only [Maker.eval] at heval
      split_ifs at heval with hi
      · cases heval
        simp [Maker.call, Gc.liInfix4343, h.assertString_eq (h.var _ _ hc).2, hi]
      · cases d with
        | int n => cases heval
        | ref j =>
          simp only at heval
          split_ifs at heval with hj
          · cases heval
            simp [Maker.call, Gc.liInfix4343, h.assertString_eq (h.var _ _ hc).2,
              h.assertString_eq (h.var _ _ hd).2, not_not.1 hi, hj]
          · cases heval
  | substring =>
    obtain ⟨c, d, e, hc, hd, he, rfl⟩ := mapM_three hcs
    cases c with
    | int n => cases heval
    | ref i =>
      have hptr := (h.var _ _ hc).2
      have hstring := h.assertString_eq hptr
      simp only [Maker.eval] at heval
      split_ifs at heval with hi
      · cases heval
        simp [Maker.call, Gc.lsubstring, hstring, hi]
      · rw [not_not.1 hi] at hstring
        split at heval
        · cases heval
          simp [Maker.call, Gc.lsubstring, hstring, h.displays.not_unboxed (h.var _ _ hd).2]
        · cases heval
          simp [Maker.call, Gc.lsubstring, hstring, (h.var _ _ hd).2.2.1,
            h.displays.not_unboxed (h.var _ _ he).2]
        · have hp := (h.var _ _ hd).2
          have hl := (h.var _ _ he).2
          split_ifs at heval with hin hpos
          · cases heval
          · cases heval
            simp [Maker.call, Gc.lsubstring, hstring, hp.2.1, hp.2.2, hl.2.1, hl.2.2,
              h.displays.len_eq hptr, h.substring_outside hptr hp hl hin]
  | clone =>
    obtain ⟨c, -, rfl⟩ := mapM_one hcs
    cases c with
    | int n => cases heval
    | ref i =>
      simp only [Maker.eval] at heval
      split_ifs at heval <;> cases heval

/-- Only an integer is returned as it is. -/
theorem Maker.eval_value {obj : ℕ → Obj} (heval : f.eval obj F a cs = some (.ok (.value c))) :
    f = .clone ∧ cs = [c] ∧ ∃ n, c = .int n := by
  revert heval
  fun_cases Maker.eval obj F a f cs <;> intro heval <;> simp_all
  exact ⟨_, heval.symm⟩

/-- A copy of an integer. -/
theorem Models.copies (mmap : ℕ → Option ℕ) (h : Models A.toStore ids place s)
    (hcs : (f.args a).mapM A.var = some cs)
    (heval : f.eval A.obj F a cs = some (.ok (.value c))) :
    f.call mmap F a s = some (.ok (s, s.mem a)) ∧ Denotes ids place c (s.mem a) := by
  obtain ⟨rfl, rfl, n, rfl⟩ := Maker.eval_value heval
  obtain ⟨d, hd, heq⟩ := mapM_one hcs
  obtain rfl := (List.cons.inj heq).1
  have hint := (h.var _ _ hd).2
  exact ⟨by rw [Maker.call, Gc.lclone, if_pos hint.2.1], hint⟩

/-! ### Commands -/

/-- A variable gets what a function has returned. -/
theorem Models.follows (h : Models A.toStore ids place s) (ht : Told A s) (hx : Outside s x)
    (hw : Denotes ids place c w) :
    Agree Follows (.ok (A.assign x c) : Except String _) (.ok (s.assign x w)) := by
  have hanswer : (s.assign x w).2 = c.answer := (h.answer_eq hw).symm
  have hpair : s.assign x w = ((s.assign x w).1, c.answer) := Prod.ext rfl hanswer
  rw [hpair]
  exact .ok ⟨⟨ids, place, h.assign hx hw⟩, ⟨ht.top, ht.bottom, ht.extra⟩⟩

/-- What the program has told the collector, after an operation. -/
theorem Models.told {kernel : State → ℕ → Option ℕ} {p : Op} {B : Store} {s' : State} {r r' : Option ℤ}
    (h : Models A.toStore ids place s) (ht : Told A s) (hhosts : Hosts kernel p A.toStore s)
    (hstore : Store.perform p A.toStore = some (.ok (B, r)))
    (hmem : State.perform kernel p s = some (.ok (s', r'))) : Told (A.after B p) s' := by
  cases p with
  | int x n =>
    cases hmem
    exact ⟨ht.top, ht.bottom, ht.extra⟩
  | move x y =>
    cases hmem
    exact ⟨ht.top, ht.bottom, ht.extra⟩
  | call x f ys =>
    obtain ⟨v, -, hv⟩ := Option.map_eq_some_iff.1 hmem
    cases v with
    | error e => cases hv
    | ok w =>
      cases hv
      exact ⟨ht.top, ht.bottom, ht.extra⟩
  | sta x y z v =>
    obtain hv := Option.some.inj hmem
    cases hsta : Gc.bsta s.mem (s.mem y) (s.mem z) (s.mem v) with
    | error e =>
      rw [hsta] at hv
      cases hv
    | ok w =>
      rw [hsta] at hv
      cases hv
      exact ⟨ht.top, ht.bottom, ht.extra⟩
  | alloc x t n =>
    obtain ⟨hs, -⟩ := Option.ite_some_none_eq_some.1 hstore
    obtain ⟨-, -, hcollects⟩ := hhosts
    obtain ⟨s₁, s₂, -, -, halloc, hcleared, -, hg, -⟩ :=
      h.allocated hs fun hfull => hcollects hfull ids place h
    have hrest : s₁ = { s with mem := s₁.mem, heap := s₁.heap } := by
      rcases hcleared with rfl | ⟨-, -, kept, hcollected⟩
      · rfl
      · exact hcollected.rest
    rw [State.perform, halloc] at hmem
    cases hmem
    have htold : Told A s₂ := by
      rw [hg.rest, hrest]
      exact ⟨ht.top, ht.bottom, ht.extra⟩
    exact ⟨htold.top, htold.bottom, htold.extra⟩
  | first y w =>
    cases hmem
    exact ⟨ht.top, ht.bottom, ht.extra⟩
  | scan top bottom extra =>
    cases hmem
    exact ⟨rfl, rfl, rfl⟩

end Make

/-- **Every command** on memory keeps to the store, and gives the same answer. -/
theorem command_refines (kernel : State → ℕ → Option ℕ) :
    Refines Session.perform (State.command kernel) (Command.Hosts kernel) Follows := by
  rintro command A s r ⟨⟨ids, place, h⟩, ht⟩ hhosts hperform
  cases command with
  | op p =>
    obtain ⟨v, hstore, rfl⟩ := Option.map_eq_some_iff.1 hperform
    obtain ⟨v', hmem, hagree⟩ := perform_refines kernel p A.toStore s v ⟨ids, place, h⟩ hhosts hstore
    refine ⟨v', hmem, ?_⟩
    cases hagree with
    | error e => exact .error e
    | ok hbacks => exact .ok ⟨by cases p <;> exact hbacks, h.told ht hhosts hstore hmem⟩
  | make x f F a =>
    obtain ⟨hx, hhosts⟩ := hhosts
    obtain ⟨cs, hcs, hperform⟩ := Option.bind_eq_some_iff.1 hperform
    obtain ⟨v, heval, hperform⟩ := Option.bind_eq_some_iff.1 hperform
    match v with
    | .error message =>
      obtain rfl := Option.some.inj hperform
      exact ⟨_, by rw [State.command, h.refuses hcs heval]; rfl, .error message⟩
    | .ok (.value c) =>
      obtain rfl := Option.some.inj hperform
      obtain ⟨hcall, hw⟩ := h.copies (kernel s) hcs heval
      exact ⟨_, by rw [State.command, hcall]; rfl, h.follows ht hx hw⟩
    | .ok (.object locals roots o) =>
      obtain ⟨hs, rfl⟩ := Option.ite_some_none_eq_some.1 hperform
      obtain ⟨ids', place', m, heap, hcall, hmodels, hknown, hout⟩ :=
        h.make ht hcs heval hs (hhosts cs locals roots o hcs heval)
      refine ⟨_, by rw [State.command, hcall]; rfl, ?_⟩
      rw [Session.write_count] at hknown
      refine hmodels.follows ⟨ht.top, ht.bottom, ht.extra⟩ (hout x List.mem_cons_self) ⟨hknown, ?_⟩
      rw [Session.write_count]

/-- The session after `__init`. -/
def Session.initial (s : State) : Session := ⟨.initial s, s.gcStackTop, s.gcStackBottom, s.extraRoots⟩

/-- **No program that makes objects sees the collector.**  From `__init` on, whatever a program does next
on the answers so far, and whichever functions of the runtime make its objects, it gets the answers of a
store in which no object moves or goes away, also where these functions collect garbage before they write
the contents. -/
theorem commands_refine {k : Kernel} {s₀ : State} {p : Process} (hinit : init k s₀ = some p)
    (halign : p.state.heap.begin % 8 = 0) (hbegin : 0 < p.state.heap.begin)
    (hspace : p.state.heap.endPtr ≤ 2 ^ 64) {kernel : State → ℕ → Option ℕ}
    {next : List (Option ℤ) → Option Command} {n : ℕ} {r : Except String (Session × List (Option ℤ))}
    (hmeets : Meets Session.perform (State.command kernel) (Command.Hosts kernel) next n
      (.initial p.state) p.state [])
    (hrun : run Session.perform next n (.initial p.state) [] = some r) :
    ∃ r', run (State.command kernel) next n p.state [] = some r' ∧ Agree Follows r r' :=
  (command_refines kernel).run ⟨backs_initial hinit halign hbegin hspace, ⟨rfl, rfl, rfl⟩⟩ hmeets hrun

/-! ### A list that is made while garbage is collected -/

/-- The frames of the functions. -/
def listFrames : Frames := ⟨3056, 3040, 3024, 3000⟩

/-- The list `{{7}}`, where there is no room for the second of its cells. -/
def listProgram (answers : List (Option ℤ)) : Option Command :=
  [.op (.scan 0 3072 [2048, 2056, 2064]), .op (.int 2048 7), .op (.int 2056 0), .op (.int 2064 56),
    .make 2048 .cons listFrames 2048, .make 2064 .makeArray listFrames 2064, .op (.int 2064 0),
    .make 2056 .cons listFrames 2048, .op (.call 2048 .elem [2056, 2064]),
    .op (.call 2048 .elem [2048, 2064])][answers.length]?

/-- What `Ls__Infix_58` relies on. -/
theorem hosts_cons {kernel : State → ℕ → Option ℕ} {A : Session} {s : State} {x a : ℕ} {F : Frames}
    {c d : Content} (hx : Outside s x) (hc : A.var a = some c) (hd : A.var (a + 8) = some d)
    (hinner : F.inner ≤ F.own) (hinnermost : F.innermost ≤ F.inner)
    (houter : ∀ b ∈ wordAddrs F.locals 3, Outside s b)
    (hcalls : Calls (kernel s) (A.write [(F.locals, c), (F.locals + 8, d), (F.locals + 16, .int 848787)])
      { s with mem := Maker.written F a s.mem .cons } F.own (wordAddrs F.locals 2) [x, F.locals + 16]
      (words (LamaType.sexp.bytes 2))) :
    Command.Hosts kernel (.make x .cons F a) A s := by
  refine ⟨hx, fun cs locals roots o hcs heval => ?_⟩
  obtain ⟨c', d', hc', hd', rfl⟩ := mapM_two hcs
  obtain rfl := Option.some.inj (hc.symm.trans hc')
  obtain rfl := Option.some.inj (hd.symm.trans hd')
  have htag : consTag = some 848787 := by decide
  rw [Maker.eval, htag] at heval
  cases heval
  exact ⟨hinner, hinnermost, trivial, by simpa [wordAddrs, List.range_succ] using houter, hcalls⟩

/-- What `LmakeArray` relies on. -/
theorem hosts_makeArray {kernel : State → ℕ → Option ℕ} {A : Session} {s : State} {x a n : ℕ}
    {F : Frames} (hx : Outside s x) (hn : A.var a = some (.int n)) (hinner : F.inner ≤ F.own)
    (hinnermost : F.innermost ≤ F.inner)
    (hcalls : Calls (kernel s) A s F.own [] [x] (words (LamaType.array.bytes n))) :
    Command.Hosts kernel (.make x .makeArray F a) A s := by
  refine ⟨hx, fun cs locals roots o hcs heval => ?_⟩
  obtain ⟨c, hc, rfl⟩ := mapM_one hcs
  obtain rfl := Option.some.inj (hn.symm.trans hc)
  simp only [Maker.eval, Nat.cast_nonneg, if_true] at heval
  cases heval
  exact ⟨hinner, hinnermost, trivial, fun l hl => absurd hl List.not_mem_nil, hcalls⟩

/-- What the calls of `listProgram` rely on. -/
theorem listCalls {A : Session} {s s₀ : State} {roots asides : List ℕ} {size : ℕ}
    (hheap : s₀.heap.begin + 8 * s₀.heap.size = s.heap.begin + 8 * s.heap.size)
    (htop : s.gcStackTop = 0) (hbottom : s.gcStackBottom = 3072) (hbegin : 4096 ≤ s.heap.begin)
    (hpool : s.extraRoots.length + roots.length ≤ 32) (hlow : ∀ a ∈ asides, a + 8 ≤ 4096)
    (hcollects : s.heap.endPtr < s.heap.current + 8 * size → ∀ ids place,
      Models (A.during listFrames.own roots) ids place (s.during listFrames.own roots) →
        Collects (behindHeap s₀) (A.during listFrames.own roots) (s.during listFrames.own roots)
          (ids.map place) size) :
    Calls (behindHeap s₀) A s listFrames.own roots asides size := by
  have henter : (s.enter listFrames.own).gcStackTop = 3056 := by
    rw [State.enter, if_pos htop]
    rfl
  refine ⟨⟨⟨?_, ?_, ?_, ?_⟩, ?_, hpool⟩, hcollects, fun a ha => ?_, fun a ha n begin hchunk => ?_⟩
  · rw [henter]
    decide
  · rw [henter]
  · rw [henter]
    decide
  · rw [henter, hbottom]
    decide
  · rw [henter, hbottom]
    decide
  · have := hlow a ha
    exact .inl (by omega)
  · obtain ⟨-, rfl⟩ := Option.ite_some_none_eq_some.1 hchunk
    have := hlow a ha
    omega

/-- The first element is found after its cell has been moved. -/
theorem commands_refine_list : ∃ s,
    run (State.command behindHeap) listProgram 10 startProcess.state [] =
      some (.ok (s, [none, some 7, some 0, some 56, none, none, some 0, none, none, some 7])) := by
  have hanswers : (run Session.perform listProgram 10 (.initial startProcess.state) []).map
      (fun r => r.toOption.map Prod.snd) =
        some (some [none, some 7, some 0, some 56, none, none, some 0, none, none, some 7]) := by
    decide +kernel
  have hmeets : Meets Session.perform (State.command behindHeap) (Command.Hosts behindHeap)
      listProgram 10 (.initial startProcess.state) startProcess.state [] := by
    refine .step rfl trivial (a := none) (by decide +kernel) (by decide +kernel) ?_
    refine .step rfl ?_ (a := some 7) (by decide +kernel) (by decide +kernel) ?_
    · exact of_decide_eq_true (p := Outside _ _) (by decide +kernel)
    refine .step rfl ?_ (a := some 0) (by decide +kernel) (by decide +kernel) ?_
    · exact of_decide_eq_true (p := Outside _ _) (by decide +kernel)
    refine .step rfl ?_ (a := some 56) (by decide +kernel) (by decide +kernel) ?_
    · exact of_decide_eq_true (p := Outside _ _) (by decide +kernel)
    refine .step rfl ?_ (a := none) (by decide +kernel) (by decide +kernel) ?_
    · refine hosts_cons (c := .int 7) (d := .int 0) (by decide +kernel) (by decide +kernel)
        (by decide +kernel) (by decide) (by decide) (by decide +kernel) (listCalls (by decide +kernel)
          (by decide +kernel) (by decide +kernel) (by decide +kernel) (by decide +kernel) (by decide) ?_)
      exact fun hfull => absurd hfull (by decide +kernel)
    refine .step rfl ?_ (a := none) (by decide +kernel) (by decide +kernel) ?_
    · refine hosts_makeArray (n := 56) (by decide +kernel) (by decide +kernel) (by decide) (by decide)
        (listCalls (by decide +kernel) (by decide +kernel) (by decide +kernel) (by decide +kernel)
          (by decide +kernel) (by decide) ?_)
      exact fun hfull => absurd hfull (by decide +kernel)
    refine .step rfl ?_ (a := some 0) (by decide +kernel) (by decide +kernel) ?_
    · exact of_decide_eq_true (p := Outside _ _) (by decide +kernel)
    -- here the first cell is moved
    refine .step rfl ?_ (a := none) (by decide +kernel) (by decide +kernel) ?_
    · refine hosts_cons (c := .ref 0) (d := .int 0) (by decide +kernel) (by decide +kernel)
        (by decide +kernel) (by decide) (by decide) (by decide +kernel) (listCalls (by decide +kernel)
          (by decide +kernel) (by decide +kernel) (by decide +kernel) (by decide +kernel) (by decide) ?_)
      refine fun _ ids place h => collects_behindHeap (W := [3064, 2048, 2056, 2064, 3000, 3008])
        (U := [3064, 3072, 2048, 2056, 2064, 3000, 3008]) h rfl (by decide +kernel) (by decide +kernel)
        (by decide) (by decide +kernel) (by decide) (by decide +kernel) (by decide +kernel)
        (by decide +kernel) (by decide +kernel) (by decide)
    refine .step rfl ?_ (a := none) (by decide +kernel) (by decide +kernel) ?_
    · exact of_decide_eq_true (p := Outside _ _) (by decide +kernel)
    refine .step rfl ?_ (a := some 7) (by decide +kernel) (by decide +kernel) trivial
    exact of_decide_eq_true (p := Outside _ _) (by decide +kernel)
  obtain ⟨r, hrun, hr⟩ := Option.map_eq_some_iff.1 hanswers
  obtain ⟨r', hrun', hagree⟩ := commands_refine init_nextPages (by decide) (by decide) (by decide)
    hmeets hrun
  cases hagree with
  | error e => cases hr
  | ok hfollows =>
    obtain rfl := Option.some.inj hr
    exact ⟨_, hrun'⟩

end LamaRv.Gc
