import LamaRv.Runtime.Filled

/-!
# What the functions that make objects do (`runtime.c`)

Each of them, called with arguments in variables that are scanned, puts the object into the store that
its arguments say, also where the allocation collects garbage.

* `construct_run`, `bstring_nested`, …: the calls come to an end;
* `Gives`: a call makes an object of a store;
* `Models.barray`, `Models.bsexp`, …, `Models.lclone`: one lemma for each function.
-/

namespace LamaRv.Gc

open WordBytes

/-- A call makes an object: it returns the address of the contents, and nothing else has changed for the
program. -/
def Gives (run : Option (Except String (State × ℕ))) (A : Session) (s : State) (frame : ℕ)
    (roots asides : List ℕ) (o : Obj) : Prop :=
  ∃ ids place m heap, run = some (.ok ({ s with mem := m, heap := heap }, place A.count + 16)) ∧
    Models (A.make frame roots o).toStore ids place { s with mem := m, heap := heap } ∧
    A.count ∈ ids ∧ ∀ a ∈ asides, Outside { s with mem := m, heap := heap } a

/-! ### The ends of the calls -/

section Runs

variable {mmap : ℕ → Option ℕ} {s s₂ : State} {frame frame' n p args : ℕ} {roots roots' : List ℕ}
  {allocate : State → Option (State × ℕ)} {write : Mem → ℕ → Mem}

/-- A function that is called by another one. -/
theorem during_during (h : Enters s frame roots) :
    (s.during frame roots).during frame' roots' = s.during frame (roots ++ roots') := by
  have htop : (s.during frame roots).gcStackTop ≠ 0 := h.framed.nonzero
  rw [State.during, State.enter, if_neg htop]
  simp only [State.during, List.append_assoc]

theorem Enters.nested (roots roots' : List ℕ) (h : Enters s frame (roots ++ roots'))
    (hle : frame' ≤ frame) :
    Enters (s.during frame roots) frame' roots' := by
  have htop : (s.during frame roots).gcStackTop ≠ 0 := h.framed.nonzero
  have henter : (s.during frame roots).enter frame' = s.during frame roots := by
    rw [State.enter, if_neg htop]
  have hbottom : (s.during frame roots).gcStackBottom = s.gcStackBottom := enter_gcStackBottom
  refine ⟨⟨?_, ?_, ?_, ?_⟩, ?_, ?_⟩
  · rw [henter]
    exact htop
  · rw [henter]
    exact h.framed.aligned
  · rw [henter]
    exact hle.trans h.framed.below
  · rw [henter, hbottom]
    exact h.framed.stack
  · rw [henter, hbottom]
    exact h.nonempty
  · have hpool := h.pool
    rw [List.length_append] at hpool
    rw [during_extraRoots, List.length_append]
    omega

/-- Fewer extra roots. -/
theorem Enters.left (roots roots' : List ℕ) (h : Enters s frame (roots ++ roots')) :
    Enters s frame roots := by
  have hpool := h.pool
  rw [List.length_append] at hpool
  exact ⟨h.framed, h.nonempty, by omega⟩

theorem during_nil : s.during frame [] = s.enter frame := by
  rw [State.during, List.append_nil]
  unfold State.enter
  split_ifs <;> rfl

/-- Some more extra roots, in a function between `PRE_GC` and `POST_GC`. -/
theorem Enters.withRoots {m : Mem} {heap : MemoryChunk} (body : State → Option (State × ℕ))
    (h : Enters s frame roots)
    (hbody : body (s.during frame roots) =
      some ({ s.during frame roots with mem := m, heap := heap }, p)) :
    Gc.withRoots roots body (s.enter frame) =
      some ({ s.enter frame with mem := m, heap := heap }, p) := by
  have hduring : { s.enter frame with extraRoots := (s.enter frame).extraRoots ++ roots } =
      s.during frame roots := by rw [enter_extraRoots]; rfl
  have hnonempty := h.nonempty
  have hrun := withRoots_spec (s := s.enter frame) (by rw [enter_extraRoots]; exact h.pool)
    (by rwa [enter_gcStackBottom]) (by rw [hduring]; exact hbody)
    (by rw [during_extraRoots, enter_extraRoots])
  rw [hrun]
  rfl

/-- `POST_GC`. -/
theorem Enters.postGc (h : Enters s frame roots) (m : Mem) (heap : MemoryChunk) :
    Gc.postGc frame (s.gcStackTop == 0) { s.enter frame with mem := m, heap := heap } =
      some { s with mem := m, heap := heap } := by
  refine (postGc_spec h.framed (t := { s.enter frame with mem := m, heap := heap }) rfl).trans ?_
  simp only [enter_gcStackBottom, enter_startCustomData, enter_stopCustomData, enter_extraRoots]

/-- A constructor comes to an end. -/
theorem construct_run (h : Enters s frame roots)
    (hrest : s₂ = { s.during frame roots with mem := s₂.mem, heap := s₂.heap })
    (hbody : allocate (s.during frame roots) = some (s₂, p)) :
    construct frame roots allocate write s =
      some ({ s with mem := write s₂.mem p, heap := s₂.heap }, p + 16) := by
  have hwrite : allocateAndWrite allocate write (s.during frame roots) =
      some ({ s.during frame roots with mem := write s₂.mem p, heap := s₂.heap }, p) := by
    simp only [allocateAndWrite, hbody, Option.bind_eq_bind, Option.bind_some, Option.pure_def]
    conv_lhs => rw [hrest]
  have hroots := h.withRoots _ hwrite
  simp only [construct, preGc_spec h.framed, hroots, h.postGc, Option.bind_eq_bind, Option.bind_some,
    Option.pure_def]

theorem construct_ok (h : Enters s frame roots)
    (hrest : s₂ = { s.during frame roots with mem := s₂.mem, heap := s₂.heap })
    (hbody : allocate (s.during frame roots) = some (s₂, p)) :
    (construct frame roots allocate write s).map .ok =
      some (.ok ({ s with mem := write s₂.mem p, heap := s₂.heap }, p + 16) : Except String _) := by
  rw [construct_run h hrest hbody]
  rfl

/-- The writes of `Bsexp`. -/
def writeSexp (args n : ℕ) (m : Mem) (r : ℕ) : Mem :=
  let m := copyWords (m.set (r + 16) 0) (r + 24) args n
  m.set (r + 16) (toSizeT (unbox (m (args + 8 * n))))

theorem bsexp_eq (hn : n < 2 ^ 61) : bsexp mmap frame args (box (n + 1)) s =
    construct frame (wordAddrs args n) (allocSexp mmap · n) (writeSexp args n) s := by
  have hbn : unbox (box (n + 1)) = (n + 1 : ℕ) := unbox_boxed (n := n + 1) (by omega)
  have hfields : ((n + 1 : ℕ) : ℤ) - 1 = n := by omega
  rw [bsexp, hbn, hfields, toSizeT_natCast (by omega), Int.toNat_natCast]
  rfl

/-- `LmakeString`. -/
theorem makeString_run (h : Enters s frame []) (hn : n < 2 ^ 62)
    (hrest : s₂ = { s.enter frame with mem := s₂.mem, heap := s₂.heap })
    (hbody : allocString mmap (s.enter frame) n = some (s₂, p)) :
    makeString mmap frame (box n) s = some ({ s with mem := s₂.mem, heap := s₂.heap }, p + 16) := by
  have hsize : toSizeT (unbox (box n)) = n := by rw [unbox_boxed hn, toSizeT_natCast (by omega)]
  have hpost := h.postGc s₂.mem s₂.heap
  rw [← hrest] at hpost
  simp only [makeString, preGc_spec h.framed, hsize, hbody, hpost, Option.bind_eq_bind,
    Option.bind_some, Option.pure_def]

/-- `Bstring`. -/
theorem bstring_nested (h : Enters s frame [args]) (hn : n < 2 ^ 62) (hle : frame' ≤ frame)
    (hstrlen : strlen s.mem (s.mem args) = some n)
    (hrest : s₂ = { s.during frame [args] with mem := s₂.mem, heap := s₂.heap })
    (hbody : allocString mmap (s.during frame [args]) n = some (s₂, p)) :
    bstring mmap frame frame' args s =
      some ({ s with mem := strncpy (n + 1) (p + 16) (s₂.mem args) s₂.mem, heap := s₂.heap },
        p + 16) := by
  have hnested : Enters (s.during frame [args]) frame' [] :=
    Enters.nested [args] [] (by rwa [List.append_nil]) hle
  have henter : (s.during frame [args]).enter frame' = s.during frame [args] := by
    rw [← during_nil, during_during h, List.append_nil]
  have hmake := makeString_run hnested hn (by rwa [henter]) (by rwa [henter])
  have hroots := h.withRoots _ hmake
  simp only [bstring, hstrlen, preGc_spec h.framed, hroots, h.postGc, Option.bind_eq_bind,
    Option.bind_some, Option.pure_def]

end Runs

/-! ### Arguments and fields -/

section Arguments

variable {mmap : ℕ → Option ℕ} {A : Session} {ids : List ℕ} {place : ℕ → ℕ} {s s₂ : State} {m : Mem}
  {frame n p a k r src args : ℕ} {roots asides others : List ℕ} {t : LamaType} {c : Content}
  {cs : List Content} {write : Mem → ℕ → Mem} {pre : Mem → List ℕ}

theorem getElem?_of_mapM {α β : Type} {f : α → Option β} {xs : List α} {ys : List β}
    (h : xs.mapM f = some ys) (k : ℕ) : ys[k]? = xs[k]?.bind f := by
  induction xs generalizing ys k with
  | nil =>
    obtain rfl := Option.some.inj h
    rfl
  | cons x xs ih =>
    rw [List.mapM_cons] at h
    obtain ⟨y, hy, h⟩ := Option.bind_eq_some_iff.1 h
    obtain ⟨ys, hys, h⟩ := Option.bind_eq_some_iff.1 h
    obtain rfl := Option.some.inj h
    cases k with
    | zero => exact hy.symm
    | succ k => exact ih hys k

/-- Extra roots are scanned. -/
theorem Session.mem_live (ha : a ∈ roots) : a ∈ A.live frame roots :=
  List.mem_append_left _ (List.mem_append_right _ (List.mem_append_right _ ha))

/-- The contents of the words of a vector. -/
theorem var_of_mapM {var : ℕ → Option Content} (h : (wordAddrs src n).mapM var = some cs) (hk : k < n) :
    cs[k]? = var (src + 8 * k) := by
  rw [getElem?_of_mapM h, wordAddrs, List.getElem?_map, List.getElem?_range hk]
  rfl

theorem length_of_mapM {α β : Type} {f : α → Option β} {xs : List α} {ys : List β}
    (h : xs.mapM f = some ys) : ys.length = xs.length := by
  induction xs generalizing ys with
  | nil =>
    obtain rfl := Option.some.inj h
    rfl
  | cons x xs ih =>
    rw [List.mapM_cons] at h
    obtain ⟨y, -, h⟩ := Option.bind_eq_some_iff.1 h
    obtain ⟨ys, hys, h⟩ := Option.bind_eq_some_iff.1 h
    obtain rfl := Option.some.inj h
    rw [List.length_cons, List.length_cons, ih hys]

/-- There is a content for each word. -/
theorem isSome_of_mapM {var : ℕ → Option Content} (h : (wordAddrs src n).mapM var = some cs)
    (hk : k < n) : (cs[k]?).isSome := by
  have hlength : cs.length = n := by rw [length_of_mapM h, wordAddrs, List.length_map, List.length_range]
  rw [List.getElem?_eq_getElem (by rwa [hlength])]
  rfl

/-- The words of a new object, as they have been written. -/
theorem Writes.field (hw : Writes write args n others pre k)
    (hout : ∀ b ∈ wordAddrs args n ++ others, b < r + 16 ∨ r + 16 + 8 * (k + n) ≤ b) {j : ℕ}
    (hj : j < n) :
    write m r (r + 16 + 8 * (k + j)) = m (args + 8 * j) := by
  have hcontents := hw.contents m r hout
  have hlength := hw.length m
  have hword (m : Mem) (p i l : ℕ) (hi : i < l) : (wordsAt m p l)[i]? = some (m (p + 8 * i)) := by
    simp [wordsAt, wordAddrs, hi]
  have hright : (pre m ++ wordsAt m args n)[k + j]? = some (m (args + 8 * j)) := by
    rw [List.getElem?_append_right (by omega), hlength, Nat.add_sub_cancel_left, hword _ _ _ _ hj]
  rw [← hcontents, hword _ _ _ _ (by omega)] at hright
  exact Option.some.inj hright

/-- The first word of a new object. -/
theorem Writes.first (hw : Writes write args n others pre 1)
    (hout : ∀ b ∈ wordAddrs args n ++ others, b < r + 16 ∨ r + 16 + 8 * (1 + n) ≤ b) :
    pre m = [write m r (r + 16)] := by
  have hcontents := hw.contents m r hout
  rw [wordsAt_cons] at hcontents
  obtain ⟨w, hpre⟩ := List.length_eq_one_iff.1 (hw.length m)
  rw [hpre, List.singleton_append] at hcontents
  rw [hpre, (List.cons.inj hcontents).1]

/-- A call allocates an object and writes its contents. -/
theorem Models.gives {run : Option (Except String (State × ℕ))} {o : Obj} (write : Mem → ℕ → Mem)
    (h : Models A.toStore ids place s) (ht : Told A s) (hs : Sized t n)
    (hc : Calls mmap A s frame roots asides (words (t.bytes n)))
    (hrun : ∀ s₂ p, s₂ = { s.during frame roots with mem := s₂.mem, heap := s₂.heap } →
      allocOf t mmap (s.during frame roots) n = some (s₂, p) →
      run = some (.ok ({ s with mem := write s₂.mem p, heap := s₂.heap }, p + 16)))
    (hfull : ∀ k, o.IsField k → (o.field k).isSome)
    (hwrite : ∀ ids place s₂ p, Allocated A s frame roots asides t n ids place s₂ p →
      (∀ a, a < p + 16 ∨ s₂.heap.current ≤ a → write s₂.mem p a = s₂.mem a) ∧
        Shows ids place (write s₂.mem p) p o) :
    Gives run A s frame roots asides o := by
  obtain ⟨ids', place', s₂, p, halloc, ha⟩ := h.called ht hs hc
  obtain ⟨hframe, hshows⟩ := hwrite ids' place' s₂ p ha
  refine ⟨ids', place', write s₂.mem p, s₂.heap, ?_, ?_, ha.known, ha.outside⟩
  · rw [hrun s₂ p ha.rest halloc, ha.place_eq]
  · exact ha.finish_full h.scanned hfull hframe hshows

/-- Constructors, in terms of the words that they write. -/
theorem Models.construct {len first : ℕ} {field : ℕ → Option Content}
    {run : Option (Except String (State × ℕ))} (h : Models A.toStore ids place s) (ht : Told A s)
    (hs : Sized t len)
    (hc : Calls mmap A s frame (wordAddrs args n) asides (words (t.bytes len)))
    (hrun : ∀ s₂ p, s₂ = { s.during frame (wordAddrs args n) with mem := s₂.mem, heap := s₂.heap } →
      allocOf t mmap (s.during frame (wordAddrs args n)) len = some (s₂, p) →
      run = some (.ok ({ s with mem := write s₂.mem p, heap := s₂.heap }, p + 16)))
    (hw : Writes write args n others pre k) (hlen : t.bytes len = 16 + 8 * (k + n))
    (hothers : ∀ b ∈ others, b ∈ asides ∧ Still s frame (wordAddrs args n) b)
    (hcs : ∀ j < n, A.var (args + 8 * j) = cs[j]? ∧ (cs[j]?).isSome) (hstring : t ≠ .string)
    (hfirst : (Obj.ofFields t len first field).HasFirst → k = 1 ∧ pre s.mem = [first] ∧ first < 2 ^ 64)
    (hfield : ∀ j, (Obj.ofFields t len first field).IsField j → ∃ i < n,
      (Obj.ofFields t len first field).position j = 16 + 8 * (k + i) ∧ field j = cs[i]?) :
    Gives run A s frame (wordAddrs args n) asides (.ofFields t len first field) := by
  refine h.gives write ht hs hc hrun (fun j hj => ?_) fun ids' place' s₂ p ha => ?_
  · obtain ⟨i, hi, -, hcontent⟩ := hfield j hj
    exact (congrArg Option.isSome hcontent).trans (hcs i hi).2
  have hcurrent := ha.current
  have hwords : words (t.bytes len) = 2 + (k + n) := by
    rw [hlen, words]
    omega
  -- the arguments, after the allocation
  have hlive : ∀ j < n, args + 8 * j ∈ A.live frame (wordAddrs args n) := fun j hj =>
    Session.mem_live (mem_wordAddrs.2 ⟨j, hj, rfl⟩)
  have hargs : ∀ j < n, ∀ c, cs[j]? = some c → Outside s₂ (args + 8 * j) ∧
      Denotes ids' place' c (s₂.mem (args + 8 * j)) := fun j hj c hcj =>
    ha.var (hlive j hj) ((hcs j hj).1.trans hcj)
  have hout : ∀ b ∈ wordAddrs args n ++ others, b < p + 16 ∨ p + 16 + 8 * (k + n) ≤ b := by
    intro b hb
    have houtside : Outside s₂ b := by
      rcases List.mem_append.1 hb with hb | hb
      · obtain ⟨j, hj, rfl⟩ := mem_wordAddrs.1 hb
        obtain ⟨c, hcj⟩ := Option.isSome_iff_exists.1 (hcs j hj).2
        exact (hargs j hj c hcj).1
      · exact ha.outside b (hothers b hb).1
    have := ha.outside_ne houtside
    omega
  have hframe : ∀ b, b < p + 16 ∨ s₂.heap.current ≤ b → write s₂.mem p b = s₂.mem b := fun b hb =>
    hw.frame _ _ _ (by omega)
  have hpre : pre s₂.mem = pre s.mem := hw.congr _ _ fun b hb =>
    ha.still b (hothers b hb).1 (hothers b hb).2
  have hheader := (hframe p (.inl (by omega))).trans ha.header
  refine ⟨hframe, shows_ofFields hs hstring hheader (fun hf => ?_) fun j c hj hcj => ?_⟩
  · obtain ⟨rfl, hword, hlt⟩ := hfirst hf
    have hwritten : pre s₂.mem = [write s₂.mem p (p + 16)] := hw.first hout
    rw [hpre, hword] at hwritten
    exact ⟨(List.cons.inj hwritten).1.symm, hlt⟩
  · obtain ⟨i, hi, hposition, hcontent⟩ := hfield j hj
    rw [hposition, ← Nat.add_assoc, hw.field hout hi]
    exact (hargs i hi c (hcontent.symm.trans hcj)).2

/-- `Barray`. -/
theorem Models.barray (h : Models A.toStore ids place s) (ht : Told A s) (hs : Sized .array n)
    (hc : Calls mmap A s frame (wordAddrs args n) asides (words (LamaType.array.bytes n)))
    (hcs : (wordAddrs args n).mapM A.var = some cs) :
    Gives ((Gc.barray mmap frame args (box n) s).map .ok) A s frame (wordAddrs args n) asides
      (.ofFields .array n 0 fun k => cs[k]?) := by
  have hn := hs.length
  have hbn : unbox (box n) = n := unbox_boxed (by omega)
  rw [Gc.barray, hbn, toSizeT_natCast (by omega), Int.toNat_natCast]
  refine h.construct ht hs hc (fun _ _ hrest hbody => construct_ok hc.toEnters hrest hbody) writes_array
    (by simp [LamaType.bytes]) (fun b hb => by cases hb)
    (fun j hj => ⟨(var_of_mapM hcs hj).symm, isSome_of_mapM hcs hj⟩) (by decide) (fun hf => ?_)
    fun j hj => ⟨j, hj.1, ?_, rfl⟩
  · simp [Obj.HasFirst] at hf
  · simp [Obj.position]

/-- `Bclosure`. -/
theorem Models.bclosure (h : Models A.toStore ids place s) (ht : Told A s) {code : ℕ}
    (hs : Sized .closure (n + 1)) (hcode : s.mem args = code) (hlt : code < 2 ^ 64)
    (haside : args ∈ asides) (hstill : Still s frame (wordAddrs (args + 8) n) args)
    (hc : Calls mmap A s frame (wordAddrs (args + 8) n) asides (words (LamaType.closure.bytes (n + 1))))
    (hcs : (wordAddrs (args + 8) n).mapM A.var = some cs) :
    Gives ((Gc.bclosure mmap frame args (box n) s).map .ok) A s frame (wordAddrs (args + 8) n) asides
      (.ofFields .closure (n + 1) code fun k => cs[k - 1]?) := by
  have hn := hs.length
  have hbn : unbox (box n) = n := unbox_boxed (by omega)
  have hlen : (n : ℤ) + 1 = (n + 1 : ℕ) := by omega
  rw [Gc.bclosure, hbn, hlen, toSizeT_natCast (by omega), Int.toNat_natCast]
  refine h.construct ht hs hc (fun _ _ hrest hbody => construct_ok hc.toEnters hrest hbody) writes_closure
    (by simp [LamaType.bytes]; omega) (fun b hb => ?_)
    (fun j hj => ⟨(var_of_mapM hcs hj).symm, isSome_of_mapM hcs hj⟩) (by decide)
    (fun _ => ⟨rfl, by rw [hcode], hlt⟩) fun j hj => ⟨j - 1, ?_, ?_, rfl⟩
  · rw [List.mem_singleton.1 hb]
    exact ⟨haside, hstill⟩
  · have hlt := hj.1
    have := hj.2.2 rfl
    rw [Obj.ofFields_length] at hlt
    omega
  · have := hj.2.2 rfl
    simp only [Obj.position, Obj.ofFields_kind, reduceCtorEq, if_false]
    omega

/-- `Bsexp`, which also `Ls__Infix_58` calls. -/
theorem Models.sexp (h : Models A.toStore ids place s) (ht : Told A s) {x : ℤ} (hs : Sized .sexp n)
    (haside : args + 8 * n ∈ asides)
    (hc : Calls mmap A s frame (wordAddrs args n) asides (words (LamaType.sexp.bytes n)))
    (hcs : (wordAddrs args (n + 1)).mapM A.var = some cs) (htag : cs[n]? = some (.int x))
    {run : Option (Except String (State × ℕ))}
    (hrun : ∀ s₂ p, s₂ = { s.during frame (wordAddrs args n) with mem := s₂.mem, heap := s₂.heap } →
      allocSexp mmap (s.during frame (wordAddrs args n)) n = some (s₂, p) →
      run = some (.ok ({ s with mem := writeSexp args n s₂.mem p, heap := s₂.heap }, p + 16))) :
    Gives run A s frame (wordAddrs args n) asides (.ofFields .sexp n (toSizeT x) fun k => cs[k]?) := by
  -- the last argument is an integer, which is not taken for a pointer
  have hint := (h.var _ _ ((var_of_mapM hcs (Nat.lt_succ_self n)).symm.trans htag)).2
  refine h.construct ht hs hc hrun writes_sexp (by simp [LamaType.bytes]; omega) (fun b hb => ?_)
    (fun j hj => ⟨(var_of_mapM hcs (by omega)).symm, isSome_of_mapM hcs (by omega)⟩) (by decide)
    (fun _ => ⟨rfl, by rw [hint.2.2], ?_⟩) fun j hj => ⟨j, hj.1, ?_, rfl⟩
  · rw [List.mem_singleton.1 hb]
    exact ⟨haside, fun _ => hint.not_valid⟩
  · rw [toSizeT]
    omega
  · simp only [Obj.position, Obj.ofFields_kind, if_true]
    omega

/-- `Bsexp`. -/
theorem Models.bsexp (h : Models A.toStore ids place s) (ht : Told A s) {x : ℤ} (hs : Sized .sexp n)
    (haside : args + 8 * n ∈ asides)
    (hc : Calls mmap A s frame (wordAddrs args n) asides (words (LamaType.sexp.bytes n)))
    (hcs : (wordAddrs args (n + 1)).mapM A.var = some cs) (htag : cs[n]? = some (.int x)) :
    Gives ((Gc.bsexp mmap frame args (box (n + 1)) s).map .ok) A s frame (wordAddrs args n) asides
      (.ofFields .sexp n (toSizeT x) fun k => cs[k]?) := by
  have hn := hs.length
  rw [bsexp_eq (by omega)]
  exact h.sexp ht hs haside hc hcs htag fun _ _ hrest hbody => construct_ok hc.toEnters hrest hbody

/-! ### Arrays of some length -/

theorem fillWords_frame {v b : ℕ} (h : b < p ∨ p + 8 * n ≤ b) : fillWords m p v n b = m b := by
  induction n generalizing m p with
  | zero => rfl
  | succ n ih => rw [fillWords, ih (by omega), Mem.set_of_ne _ _ (by omega)]

theorem fillWords_word {v : ℕ} (hk : k < n) : fillWords m p v n (p + 8 * k) = v := by
  induction n generalizing m p k with
  | zero => exact absurd hk (Nat.not_lt_zero k)
  | succ n ih =>
    rw [fillWords]
    cases k with
    | zero => rw [fillWords_frame (by omega), Nat.mul_zero, Nat.add_zero, Mem.set_self]
    | succ k =>
      have hnext : p + 8 * (k + 1) = p + 8 + 8 * k := by omega
      rw [hnext, ih (by omega)]

/-- The tag of list cells is boxed. -/
theorem runtimeLtagHash_cons {x : ℤ} (h : consTag = some x) :
    runtimeLtagHash "cons" = .ok (2 * x + 1) := by
  have hhash : runtimeLtagHash "cons" = .ok 1697575 := by decide
  rw [consTag, hhash] at h
  obtain rfl := Option.some.inj h
  exact hhash

theorem enter_withMem (m : Mem) : ({ s with mem := m } : State).enter frame =
    { s.enter frame with mem := m } := by
  unfold State.enter
  split_ifs <;> rfl

theorem Framed.of_withMem (h : Framed { s with mem := m } frame) : Framed s frame := by
  obtain ⟨hnonzero, haligned, hbelow, hstack⟩ := h
  rw [enter_withMem] at hnonzero haligned hbelow hstack
  exact ⟨hnonzero, haligned, hbelow, hstack⟩

/-- `Ls__Infix_58`, after its vector has been written. -/
theorem Models.lsInfix58 {frame' vector : ℕ} {x : ℤ} {d : Content} (h : Models A.toStore ids place s)
    (ht : Told A s) (hs : Sized .sexp 2) (htag : consTag = some x) (hle : frame' ≤ frame)
    (haside : vector + 16 ∈ asides)
    (hc : Calls mmap A s frame (wordAddrs vector 2) asides (words (LamaType.sexp.bytes 2)))
    (hvars : A.var vector = some c ∧ A.var (vector + 8) = some d ∧
      A.var (vector + 16) = some (.int x)) {s₀ : State}
    (hwritten : s = { s₀ with mem := consVector s₀.mem vector args (2 * x + 1) }) :
    Gives (Gc.lsInfix58 mmap frame frame' vector args s₀) A s frame (wordAddrs vector 2) asides
      (.ofFields .sexp 2 (toSizeT x) fun k => [c, d, .int x][k]?) := by
  obtain ⟨hfst, hsnd, hthird⟩ := hvars
  have hcs : (wordAddrs vector 3).mapM A.var = some [c, d, .int x] := by
    have hwords : wordAddrs vector 3 = [vector, vector + 8, vector + 16] := rfl
    rw [hwords]
    simp only [List.mapM_cons, List.mapM_nil, hfst, hsnd, hthird, Option.pure_def, Option.bind_eq_bind,
      Option.bind_some]
  refine h.sexp ht hs haside hc hcs rfl fun s₂ p hrest hbody => ?_
  have hduring : (s.during frame []).during frame' (wordAddrs vector 2) =
      s.during frame (wordAddrs vector 2) :=
    during_during (Enters.left [] (wordAddrs vector 2) hc.toEnters)
  have hbsexp : Gc.bsexp mmap frame' vector (box 3) (s.enter frame) = some
      ({ s.enter frame with mem := writeSexp vector 2 s₂.mem p, heap := s₂.heap }, p + 16) := by
    have hthree : box 3 = box ((2 : ℕ) + 1) := rfl
    have hnested : Enters (s.during frame []) frame' (wordAddrs vector 2) :=
      Enters.nested [] (wordAddrs vector 2) hc.toEnters hle
    rw [hthree, bsexp_eq (by decide), ← during_nil]
    exact construct_run hnested (by rw [hduring]; exact hrest) (by rw [hduring]; exact hbody)
  -- the vector is written between `PRE_GC` and the call
  have hframed : Framed s₀ frame := by
    have hframed := hc.framed
    rw [hwritten] at hframed
    exact hframed.of_withMem
  have hstate : { s₀.enter frame with
      mem := consVector (s₀.enter frame).mem vector args (2 * x + 1) } = s.enter frame := by
    rw [hwritten, enter_mem]
    exact (enter_withMem _).symm
  have hpost := hc.postGc (writeSexp vector 2 s₂.mem p) s₂.heap
  have htop : s.gcStackTop = s₀.gcStackTop := by rw [hwritten]
  rw [htop] at hpost
  simp only [Gc.lsInfix58, preGc_spec hframed, runtimeLtagHash_cons htag, hstate, hbsexp, hpost,
    htop, Option.bind_eq_bind, Option.bind_some, Option.pure_def]

/-- `LmakeArray`. -/
theorem Models.lmakeArray (h : Models A.toStore ids place s) (ht : Told A s) (hs : Sized .array n)
    (hc : Calls mmap A s frame [] asides (words (LamaType.array.bytes n))) {w : ℕ}
    (hw : Denotes ids place (.int n) w) :
    Gives (Gc.lmakeArray mmap frame w s) A s frame [] asides
      (.ofFields .array n 0 fun _ => some (.int 0)) := by
  have hn := hs.length
  have hsize : toSizeT (unbox w) = n := by rw [hw.2.2, toSizeT_natCast (by omega)]
  have hwords : words (LamaType.array.bytes n) = 2 + n := by
    simp only [LamaType.bytes, words]
    omega
  refine h.gives (fun m r => fillWords m (r + 16) (box 0) n) ht hs hc (fun s₂ p hrest hbody => ?_)
    (fun _ _ => rfl) fun ids' place' s₂ p ha => ?_
  · rw [during_nil] at hrest hbody
    have hpost := hc.postGc (fillWords s₂.mem (p + 16) (box 0) n) s₂.heap
    have halloc : allocArray mmap (s.enter frame) n = some (s₂, p) := hbody
    have hstate : { s₂ with mem := fillWords s₂.mem (p + 16) (box 0) n } =
        { s.enter frame with mem := fillWords s₂.mem (p + 16) (box 0) n, heap := s₂.heap } := by
      conv_lhs => rw [hrest]
    simp only [Gc.lmakeArray, hw.2.1, preGc_spec hc.framed, hsize, halloc, hstate, hpost, Bool.not_true,
      Bool.false_eq_true, if_false, Option.bind_eq_bind, Option.bind_some, Option.pure_def]
  · have hcurrent := ha.current
    have hframe : ∀ b, b < p + 16 ∨ s₂.heap.current ≤ b →
        fillWords s₂.mem (p + 16) (box 0) n b = s₂.mem b := fun b hb => fillWords_frame (by omega)
    refine ⟨hframe, shows_ofFields hs (by decide) ((hframe p (.inl (by omega))).trans ha.header)
      (fun hf => ?_) fun k c hk hc => ?_⟩
    · simp [Obj.HasFirst] at hf
    · obtain rfl := Option.some.inj hc
      have hposition : (Obj.ofFields .array n 0 fun _ => some (.int 0)).position k = 16 + 8 * k := by
        simp [Obj.position]
      have hlt : k < n := hk.1
      rw [hposition, ← Nat.add_assoc, fillWords_word hlt]
      exact denotes_box_of_fits (by decide)

end Arguments

end LamaRv.Gc
