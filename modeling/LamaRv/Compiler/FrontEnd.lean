import LamaRv.Compiler.Functions
import LamaRv.DecodersAgree
import LamaRv.ReadInst
import Mathlib.Data.List.TakeWhile

/-!
# From the bytes to the instruction map (`lama_rv.cpp`)

`main` reads the code section with `read_inst` up to its stop, and puts the instructions into a map
from their offsets; this map, the strings and the public symbols are what the code generator gets.

* `readLoop`, `Bytefile.toModule`: the loop of `main` and what it gives to `emit`;
* `linked_iff`: when the module of an accepted file is linked;
* `toModule_encode`: what the module of an encoded code section holds.
-/

namespace LamaRv

open Readers

namespace InstMap

theorem sorted_insert {ps : List (ℕ × Instruction)} {o : ℕ} {i : Instruction}
    (hsorted : ps.Pairwise fun p q => p.1 < q.1) (hnew : ∀ p ∈ ps, p.1 ≠ o) :
    (ps.takeWhile (·.1 < o) ++ (o, i) :: ps.dropWhile (·.1 < o)).Pairwise fun p q => p.1 < q.1 := by
  induction ps with
  | nil => simp
  | cons p ps ih =>
    obtain ⟨hlt, hrest⟩ := List.pairwise_cons.1 hsorted
    by_cases hp : p.1 < o
    · rw [List.takeWhile_cons_of_pos (by simpa using hp), List.dropWhile_cons_of_pos (by simpa using hp)]
      refine List.pairwise_cons.2 ⟨fun q hq => ?_, ih hrest fun q hq => hnew q (by simp [hq])⟩
      rcases List.mem_append.1 hq with hq | hq
      · exact hlt q (List.takeWhile_subset _ hq)
      · rcases List.mem_cons.1 hq with rfl | hq
        · exact hp
        · exact hlt q (List.dropWhile_subset _ hq)
    · have hop : o < p.1 := lt_of_le_of_ne (not_lt.1 hp) (hnew p (by simp)).symm
      rw [List.takeWhile_cons_of_neg (by simpa using hp), List.dropWhile_cons_of_neg (by simpa using hp)]
      refine List.pairwise_cons.2 ⟨fun q hq => ?_, hsorted⟩
      rcases List.mem_cons.1 hq with rfl | hq
      · exact hop
      · exact hop.trans (hlt q hq)

/-- `emplace`: an instruction gets its place in the order of the offsets, unless this is taken. -/
def emplace (m : InstMap) (o : ℕ) (i : Instruction) : InstMap × Bool :=
  if h : ∀ p ∈ m.entries, p.1 ≠ o then
    (⟨m.entries.takeWhile (·.1 < o) ++ (o, i) :: m.entries.dropWhile (·.1 < o),
      sorted_insert m.sorted h⟩, true)
  else (m, false)

/-- An instruction behind all others comes last. -/
theorem emplace_last {m : InstMap} {o : ℕ} (i : Instruction) (h : ∀ p ∈ m.entries, p.1 < o) :
    (m.emplace o i).1.entries = m.entries ++ [(o, i)] ∧ (m.emplace o i).2 = true := by
  have hne : ∀ p ∈ m.entries, p.1 ≠ o := fun p hp => (h p hp).ne
  have htake : m.entries.takeWhile (·.1 < o) = m.entries :=
    List.takeWhile_eq_self_iff.2 fun p hp => by simpa using h p hp
  have hdrop : m.entries.dropWhile (·.1 < o) = [] :=
    List.dropWhile_eq_nil_iff.2 fun p hp => by simpa using h p hp
  simp only [emplace, dif_pos hne, htake, hdrop, and_self]

end InstMap

/-- The loop of `main`, with a bound on its rounds. -/
def readLoop (f : Bytefile) : ℕ → InstMap → InstReader.M InstMap
  | 0, _ => throw "out of fuel"
  | n + 1, m => do
      let offset := (← get).cursor.offset
      match ← InstReader.readInst f with
      | none => return m
      | some inst => do
          let (m, inserted) := m.emplace offset inst
          check (inserted = true) (formatHex offset)
          readLoop f n m

/-- What `main` gives to `emit`. -/
def Bytefile.toModule (f : Bytefile) (filename : String) (globalAreaSize : ℤ) :
    Except String Module := do
  let (instructions, reader) ← readLoop f (f.code.length + 1) ⟨[], .nil⟩ (← InstReader.new f)
  let publicSymbols ← (List.range f.publics.length).mapM fun i => do
    return (← f.getPublicName i, toSizeT (← f.getPublicOffset i))
  return { filename, instructions, strings := reader.strings,
           globalAreaSize := toSizeT globalAreaSize, publicSymbols }

/-! ### The loop -/

/-- The instructions that the reader counts as functions. -/
def Instruction.isFunction : Instruction → Bool
  | .beginInst _ _ _ => true
  | _ => false

/-- The text of a string. -/
def Instruction.text? : Instruction → Option String
  | .string _ str => some str
  | _ => none

/-- The functions among some instructions. -/
def functionCount (ps : List (ℕ × Instruction)) : ℕ := ps.countP (·.2.isFunction)

/-- The texts of the strings among some instructions. -/
def texts (ps : List (ℕ × Instruction)) : List String := ps.filterMap (·.2.text?)

section Loop

variable {f : Bytefile} {m m' : InstMap} {r r' : InstReader} {as pre post : List (ℕ × Instruction)}
  {o n : ℕ} {i : Instruction}

theorem InstMap.eq_of_entries (h : m.entries = m'.entries) : m = m' := by
  cases m
  cases m'
  congr

/-- An instruction takes a byte at least. -/
theorem readInst_pos {r r' : InstReader} {i : Instruction}
    (h : (InstReader.readInst f).run r = .ok (some i, r')) : r.cursor.offset < r'.cursor.offset := by
  obtain ⟨bs, -, htakes⟩ := local_readInst _ _ _ h
  have hposition : r'.cursor.offset = r.cursor.offset + bs.length := htakes.position
  cases bs with
  | nil =>
    have hrun := htakes.run []
    cases hrun
  | cons b bs =>
    rw [hposition, List.length_cons]
    omega

/-- The loop reads the instructions up to the stop, and puts each one behind the others. -/
theorem readLoop_items (h : (readLoop f n m).run r = .ok (m', r'))
    (hlast : ∀ p ∈ m.entries, p.1 < r.cursor.offset) :
    ∃ as, Items (InstReader.readInst f) r as r' ∧ m'.entries = m.entries ++ as := by
  induction n generalizing m r with
  | zero => cases h
  | succ n ih =>
    simp only [readLoop, StateT.run_bind, run_get_reader, ok_bind] at h
    obtain ⟨⟨x, r₁⟩, hread, h⟩ := bind_ok.1 h
    cases x with
    | none =>
      obtain ⟨rfl, rfl⟩ := Prod.mk.inj (Except.ok.inj h)
      exact ⟨[], .stop hread, (List.append_nil _).symm⟩
    | some i =>
      obtain ⟨hentries, hinserted⟩ := m.emplace_last i hlast
      have hpos := readInst_pos hread
      obtain ⟨u, r₂, hcheck, hloop⟩ := run_bind_ok.1 h
      obtain ⟨-, rfl⟩ := run_liftExcept.1 hcheck
      obtain ⟨as, hitems, has⟩ := ih hloop fun p hp => by
        rw [hentries] at hp
        rcases List.mem_append.1 hp with hp | hp
        · exact (hlast p hp).trans hpos
        · rw [List.mem_singleton.1 hp]
          exact hpos
      exact ⟨_, .item hread hitems, by rw [has, hentries, List.append_assoc, List.singleton_append]; rfl⟩

/-- No check of the loop fails. -/
theorem items_readLoop (h : Items (InstReader.readInst f) r as r') (hn : as.length < n)
    (hlast : ∀ p ∈ m.entries, p.1 < r.cursor.offset) :
    ∃ m', (readLoop f n m).run r = .ok (m', r') ∧ m'.entries = m.entries ++ as := by
  induction h generalizing m n with
  | stop hread =>
    obtain ⟨n, rfl⟩ := Nat.exists_eq_add_of_lt hn
    refine ⟨m, ?_, (List.append_nil _).symm⟩
    simp only [readLoop, StateT.run_bind, run_get_reader, ok_bind, hread]
    rfl
  | @item r r₁ r' i as hread hrest ih =>
    obtain ⟨n, rfl⟩ : ∃ k, n = k + 1 := ⟨n - 1, by omega⟩
    obtain ⟨hentries, hinserted⟩ := m.emplace_last i hlast
    have hpos := readInst_pos hread
    obtain ⟨m', hrun, hm'⟩ := @ih (m.emplace r.cursor.offset i).1 n (by simpa using hn) fun p hp => by
      rw [hentries] at hp
      rcases List.mem_append.1 hp with hp | hp
      · exact (hlast p hp).trans hpos
      · rw [List.mem_singleton.1 hp]
        exact hpos
    refine ⟨m', ?_, by rw [hm', hentries, List.append_assoc, List.singleton_append]; rfl⟩
    simp only [readLoop, StateT.run_bind, run_get_reader, ok_bind, hread, hinserted, check, if_true]
    exact hrun

/-- The counts of the reader behind some instructions, which start the code. -/
structure Counted (f : Bytefile) (ps : List (ℕ × Instruction)) (r : InstReader) : Prop where
  rest : r.cursor.rest = f.code.drop r.cursor.offset
  functions : r.functionIndex = functionCount ps
  strings : r.strings = texts ps

theorem Counted.step (h : Counted f pre r) (hread : (InstReader.readInst f).run r = .ok (some i, r')) :
    Counted f (pre ++ [(r.cursor.offset, i)]) r' := by
  have hnoted := (noted_readInst hread).1 i rfl
  obtain ⟨hle, hdrop⟩ := local_readInst.within hread
  refine ⟨?_, ?_, ?_⟩
  · have hdrop : r'.cursor.rest = r.cursor.rest.drop (r'.cursor.offset - r.cursor.offset) := hdrop
    have hle : r.cursor.offset ≤ r'.cursor.offset := hle
    rw [hdrop, h.rest, List.drop_drop, Nat.add_sub_cancel' hle]
  · rw [functionCount, List.countP_append, ← functionCount, ← h.functions]
    cases i with
    | beginInst id argc locc => exact hnoted.2.1
    | string ind str => exact hnoted.2.2
    | _ => exact hnoted.2
  · rw [texts, List.filterMap_append, ← texts, ← h.strings]
    cases i with
    | beginInst id argc locc => exact hnoted.1.trans (List.append_nil _).symm
    | string ind str => exact hnoted.2.1
    | _ => exact hnoted.1.trans (List.append_nil _).symm

/-- The reader before its first instruction. -/
def Bytefile.reader (f : Bytefile) : InstReader := ⟨⟨0, f.code⟩, 0, []⟩

theorem counted_reader : Counted f [] f.reader := ⟨rfl, rfl, rfl⟩

end Loop

/-! ### The module -/

/-- What is in the module of an accepted file. -/
structure Accepted (f : Bytefile) (m : Module) : Prop where
  items : ∃ r, Items (InstReader.readInst f) f.reader m.instructions.entries r
  strings : m.strings = texts m.instructions.entries
  publics : List.Forall₂ (fun i s => f.getPublicName i = .ok s.1 ∧ ∃ x, f.getPublicOffset i = .ok x ∧
    s.2 = toSizeT x) (List.range f.publics.length) m.publicSymbols

theorem mapM_ok {α γ : Type} {g : α → Except String γ} {xs : List α} {ys : List γ} :
    xs.mapM g = .ok ys ↔ List.Forall₂ (fun x y => g x = .ok y) xs ys := by
  induction xs generalizing ys with
  | nil =>
    rw [List.mapM_nil, return_ok, List.forall₂_nil_left_iff, eq_comm]
  | cons x xs ih =>
    rw [List.mapM_cons, bind_ok, List.forall₂_cons_left_iff]
    constructor
    · rintro ⟨y, hy, h⟩
      obtain ⟨ys', hys, h⟩ := bind_ok.1 h
      exact ⟨y, ys', hy, ih.1 hys, (return_ok.1 h).symm⟩
    · rintro ⟨y, ys', hy, hys, rfl⟩
      exact ⟨y, hy, bind_ok.2 ⟨ys', ih.2 hys, rfl⟩⟩

section Modules

variable {f : Bytefile} {m : Module} {filename : String} {g : ℤ}

theorem toModule_accepted (h : f.toModule filename g = .ok m) : Accepted f m := by
  unfold Bytefile.toModule at h
  obtain ⟨r, hnew, h⟩ := bind_ok.1 h
  obtain ⟨⟨instructions, r'⟩, hloop, h⟩ := bind_ok.1 h
  obtain ⟨publicSymbols, hpublics, h⟩ := bind_ok.1 h
  obtain rfl := return_ok.1 h
  obtain ⟨u, -, hr⟩ := bind_ok.1 hnew
  obtain rfl := return_ok.1 hr
  obtain ⟨as, hitems, has⟩ := readLoop_items hloop (by simp)
  obtain rfl : instructions.entries = as := has
  have hlast := hitems.last (I := Counted f) (fun _ _ _ _ hcounted hread => hcounted.step hread)
    counted_reader
  obtain ⟨s, hcounted, hstop⟩ := hlast
  refine ⟨⟨r', hitems⟩, ((noted_readInst hstop).2 rfl).trans hcounted.strings, ?_⟩
  refine (mapM_ok.1 hpublics).imp fun i s hs => ?_
  obtain ⟨name, hname, hs⟩ := bind_ok.1 hs
  obtain ⟨x, hx, hs⟩ := bind_ok.1 hs
  obtain rfl := return_ok.1 hs
  exact ⟨hname, x, hx, rfl⟩

/-- The place of an instruction in the file. -/
theorem Accepted.item (h : Accepted f m) {o : ℕ} {i : Instruction} {pre post : List (ℕ × Instruction)}
    (hentries : m.instructions.entries = pre ++ (o, i) :: post) : ∃ r r' r'', r.cursor.offset = o ∧
      Counted f pre r ∧ (InstReader.readInst f).run r = .ok (some i, r') ∧
      Items (InstReader.readInst f) r' post r'' := by
  obtain ⟨r'', hitems⟩ := h.items
  rw [hentries] at hitems
  obtain ⟨r, r', ho, hcounted, hread, hpost⟩ := hitems.split (I := Counted f)
    (fun _ _ _ _ hcounted hread => hcounted.step hread) counted_reader
  exact ⟨r, r', r'', ho, hcounted, hread, hpost⟩

/-- The label of a string in the code is that of its text in the data section. -/
theorem Accepted.string (h : Accepted f m) {o ind : ℕ} {str : String}
    (hat : m.instructions.at? o = some (.string ind str)) : m.strings[ind]? = some str := by
  obtain ⟨pre, post, hentries⟩ := List.append_of_mem (InstMap.mem_of_at? hat)
  obtain ⟨r, r', r'', -, hcounted, hread, -⟩ := h.item hentries
  obtain ⟨hind, -, -⟩ : Noted f r r' (.string ind str) := (noted_readInst hread).1 _ rfl
  rw [h.strings, hentries, texts, List.filterMap_append, List.filterMap_cons, ← texts, hind,
    hcounted.strings]
  simp [Instruction.text?]

/-! ### The functions -/

/-- The public symbol with some number. -/
theorem Accepted.symbol (h : Accepted f m) {k : ℕ} (hk : k < f.publics.length) :
    ∃ name x, m.publicSymbols[k]? = some (name, toSizeT x) ∧ f.getPublicName k = .ok name ∧
      f.getPublicOffset k = .ok x := by
  obtain ⟨hlength, hget⟩ := List.forall₂_iff_get.1 h.publics
  have hk' : k < m.publicSymbols.length := by rwa [← hlength, List.length_range]
  obtain ⟨hname, x, hx, hs⟩ := hget k (by simpa using hk) hk'
  have hrange : (List.range f.publics.length).get ⟨k, by simpa using hk⟩ = k := by simp
  rw [hrange] at hname hx
  refine ⟨_, x, ?_, hname, hx⟩
  rw [← hs, List.getElem?_eq_getElem hk']
  rfl

theorem Accepted.length_publicSymbols (h : Accepted f m) :
    m.publicSymbols.length = f.publics.length := by
  rw [← h.publics.length_eq, List.length_range]

theorem toSizeT_of_getPublicOffset {k o : ℕ} (hsize : f.size < 2 ^ 64)
    (h : f.getPublicOffset k = .ok (o : ℤ)) : toSizeT (o : ℤ) = o := by
  refine toSizeT_natCast ?_
  unfold Bytefile.getPublicOffset at h
  split at h
  · obtain ⟨u, hcheck, h⟩ := bind_ok.1 h
    have hle := check_ok.1 hcheck
    rw [return_ok.1 h] at hle
    omega
  · cases h

/-- A function with a name is that of the public symbol with its number. -/
theorem Accepted.named (h : Accepted f m) (hsize : f.size < 2 ^ 64) {o argc locc : ℕ} {id : FunctionId}
    {pre post : List (ℕ × Instruction)}
    (hentries : m.instructions.entries = pre ++ (o, .beginInst id argc locc) :: post) :
    if functionCount pre < f.publics.length then
      ∃ name, id = .inl name ∧ m.publicSymbols[functionCount pre]? = some (name, o)
    else id = .inr o := by
  obtain ⟨r, r', r'', rfl, hcounted, hread, -⟩ := h.item hentries
  obtain ⟨-, -, hnoted⟩ : Noted f r r' (.beginInst id argc locc) := (noted_readInst hread).1 _ rfl
  rw [hcounted.functions] at hnoted
  split at hnoted
  next hk =>
    obtain ⟨hoffset, name, hname, rfl⟩ := hnoted
    obtain ⟨name', x, hsymbol, hname', hx⟩ := h.symbol hk
    obtain rfl := Except.ok.inj (hname.symm.trans hname')
    obtain rfl := Except.ok.inj (hoffset.symm.trans hx)
    rw [if_pos hk]
    exact ⟨name, rfl, by rw [hsymbol, toSizeT_of_getPublicOffset hsize hoffset]⟩
  next hk =>
    rw [if_neg hk]
    exact hnoted

/-- Some element has just as many others before it. -/
theorem exists_of_lt_countP {α : Type} {p : α → Bool} {xs : List α} {k : ℕ} (h : k < xs.countP p) :
    ∃ pre x post, xs = pre ++ x :: post ∧ p x = true ∧ pre.countP p = k := by
  induction xs generalizing k with
  | nil => cases h
  | cons x xs ih =>
    by_cases hx : p x = true
    · cases k with
      | zero => exact ⟨[], x, xs, rfl, hx, rfl⟩
      | succ k =>
        rw [List.countP_cons_of_pos hx] at h
        obtain ⟨pre, y, post, rfl, hy, hk⟩ := ih (Nat.lt_of_succ_lt_succ h)
        exact ⟨x :: pre, y, post, rfl, hy, by rw [List.countP_cons_of_pos hx, hk]⟩
    · rw [List.countP_cons_of_neg hx] at h
      obtain ⟨pre, y, post, rfl, hy, hk⟩ := ih h
      exact ⟨x :: pre, y, post, rfl, hy, by rw [List.countP_cons_of_neg hx, hk]⟩

/-- What a file needs for its module to be linked: jumps and calls lead to instructions, there is a
function for each public symbol, and the names differ from each other and from the other labels. -/
structure Linkable (f : Bytefile) (m : Module) : Prop where
  targets : ∀ o i t, m.instructions.at? o = some i → (i.jumpTarget = some t ∨ i.callTarget = some t) →
    ∃ j, m.instructions.at? t = some j
  functions : f.publics.length ≤ functionCount m.instructions.entries
  distinct : (m.publicSymbols.map Prod.fst).Nodup
  fresh : ∀ s ∈ m.publicSymbols, s.1 ∉ m.headerLabels ∧ (∀ o, s.1 ≠ Compiler.labelForIp o) ∧
    ∀ o, s.1 ≠ "closure@" ++ formatHex10 o

theorem Accepted.linked (h : Accepted f m) (hsize : f.size < 2 ^ 64) (hlinkable : Linkable f m) :
    m.Linked := by
  obtain ⟨htargets, hcount, hdistinct, hfresh⟩ := hlinkable
  refine ⟨htargets, fun name o hmem => ?_, fun name o argc locc hat => ?_, hdistinct, hfresh⟩
  · obtain ⟨k, hk⟩ := List.mem_iff_getElem?.1 hmem
    have hlt : k < f.publics.length := by
      rw [← h.length_publicSymbols]
      exact (List.getElem?_eq_some_iff.1 hk).1
    obtain ⟨pre, ⟨o', i⟩, post, hentries, hi, hpre⟩ := exists_of_lt_countP (hlt.trans_le hcount)
    cases i with
    | beginInst id argc locc =>
      have hnamed := h.named hsize hentries
      rw [functionCount, hpre, if_pos hlt] at hnamed
      obtain ⟨name', rfl, hk'⟩ := hnamed
      obtain ⟨rfl, rfl⟩ := Prod.mk.inj (Option.some.inj (hk.symm.trans hk'))
      exact ⟨argc, locc, InstMap.at?_of_mem (by rw [hentries]; simp)⟩
    | _ => cases hi
  · obtain ⟨pre, post, hentries⟩ := List.append_of_mem (InstMap.mem_of_at? hat)
    have hnamed := h.named hsize hentries
    split at hnamed
    · obtain ⟨name', hname, hsymbol⟩ := hnamed
      obtain rfl := Sum.inl.inj hname
      exact List.mem_of_getElem? hsymbol
    · cases hnamed

theorem Accepted.linkable (h : Accepted f m) (hsize : f.size < 2 ^ 64) (hm : m.Linked) :
    Linkable f m := by
  refine ⟨hm.targets, ?_, hm.distinct, hm.fresh⟩
  by_contra hlt
  -- the public symbol behind the last function has the name of an earlier one
  obtain ⟨name, x, hsymbol, -, -⟩ := h.symbol (not_le.1 hlt)
  obtain ⟨argc, locc, hat⟩ := hm.publics _ _ (List.mem_of_getElem? hsymbol)
  obtain ⟨pre, post, hentries⟩ := List.append_of_mem (InstMap.mem_of_at? hat)
  have hcount : functionCount pre < functionCount m.instructions.entries := by
    rw [hentries, functionCount, functionCount, List.countP_append, List.countP_cons_of_pos rfl]
    omega
  have hnamed := h.named hsize hentries
  rw [if_pos (hcount.trans (not_le.1 hlt))] at hnamed
  obtain ⟨name', hname, hsymbol'⟩ := hnamed
  obtain rfl := Sum.inl.inj hname
  have hsame : (m.publicSymbols.map Prod.fst)[functionCount pre]? =
      (m.publicSymbols.map Prod.fst)[functionCount m.instructions.entries]? := by
    rw [List.getElem?_map, List.getElem?_map, hsymbol, hsymbol']
  have hbound : functionCount pre < (m.publicSymbols.map Prod.fst).length := by
    rw [List.length_map, h.length_publicSymbols]
    exact hcount.trans (not_le.1 hlt)
  exact hcount.ne ((List.getElem?_inj hbound hm.distinct).1 hsame)

/-- **The functions.**  The reader makes a linked module of a file just when this is linkable: it gives
the public names to the right functions. -/
theorem linked_iff (h : f.toModule filename g = .ok m) (hsize : f.size < 2 ^ 64) :
    m.Linked ↔ Linkable f m :=
  ⟨(toModule_accepted h).linkable hsize, (toModule_accepted h).linked hsize⟩

end Modules

/-! ### The recursive function in a file -/

/-- A small number. -/
def Operand.small (k : Fin 128) : Operand where
  bits := BitVec.ofNat 32 k
  nonneg := by
    rw [toInt_ofNat_short (k.isLt.trans (by decide))]
    exact Int.natCast_nonneg _

/-- The code of the function that counts down to zero. -/
def countdownCode : List Code :=
  [.beginInst (.small 1) (.small 0), .ld .arg (.small 0), .cJmp false (.small 25), .const 0, .endInst,
    .ld .arg (.small 0), .const 1, .binop .sub, .call (.small 0) (.small 1), .endInst]

/-- The file. -/
def countdownFile : Bytefile where
  stringtab := [99, 111, 117, 110, 116, 0]
  publics := [(0, 0)]
  code := encodeAll countdownCode ++ [255]

theorem countdownFile_module : countdownFile.toModule "count.bc" 0 = .ok countdown := by
  have hentries : (countdownFile.toModule "count.bc" 0).toOption.map (·.instructions.entries) =
      some countdown.instructions.entries := by decide +kernel
  have hsymbols : (countdownFile.toModule "count.bc" 0).toOption.map (·.publicSymbols) =
      some countdown.publicSymbols := by decide +kernel
  have hdata : (countdownFile.toModule "count.bc" 0).toOption.map (fun m =>
      (m.filename, m.strings, m.globalAreaSize)) = some ("count.bc", [], 0) := by decide +kernel
  cases hm : countdownFile.toModule "count.bc" 0 with
  | error e =>
    rw [hm] at hentries
    cases hentries
  | ok m =>
    rw [hm] at hentries hsymbols hdata
    obtain ⟨filename, instructions, strings, size, symbols⟩ := m
    obtain ⟨rfl, hdata⟩ := Prod.mk.inj (Option.some.inj hdata)
    obtain ⟨rfl, rfl⟩ := Prod.mk.inj hdata
    obtain rfl : instructions = countdown.instructions :=
      InstMap.eq_of_entries (Option.some.inj hentries)
    obtain rfl : symbols = countdown.publicSymbols := Option.some.inj hsymbols
    rfl

/-- The reader gives the name to the recursive function. -/
theorem linked_iff_countdown : countdown.Linked ∧ Linkable countdownFile countdown :=
  ⟨countdown_linked, (linked_iff countdownFile_module (by decide)).1 countdown_linked⟩

/-! ### Encoded instructions -/

namespace Code

/-- The object that the reader makes of an encoded instruction at an offset, behind some functions and
some strings. -/
def instructionAt (f : Bytefile) (o functions strings : ℕ) : Code → Instruction
  | beginInst argc locc =>
    match f.publics[functions]? with
    | some p => .beginInst (.inl (stringAt f p.1.toNat)) argc.value locc.value
    | none => .beginInst (.inr o) argc.value locc.value
  | i => i.instruction f strings

/-- The instructions of a code section with their offsets. -/
def located (f : Bytefile) : ℕ → List (ℕ × Instruction) → List Code → List (ℕ × Instruction)
  | _, _, [] => []
  | o, before, i :: is =>
    let p := (o, i.instructionAt f o (functionCount before) (texts before).length)
    p :: located f (o + i.encode.length) (before ++ [p]) is

end Code

section RoundTrip

variable {f : Bytefile} {pre as : List (ℕ × Instruction)} {o k : ℕ} {strings : List String} {stop : Byte}
  {rest tail : List Byte} {r r' : InstReader} {is : List Code}

/-- A function stands at its public symbol, if it has one. -/
def Code.InPlace (f : Bytefile) (o k : ℕ) (i : Code) : Prop :=
  i.IsBegin → ∀ p, f.publics[k]? = some p → p.2 = (o : ℤ)

theorem beginsPublic_drop {i : Code} : BeginsPublic o (i :: is) (f.publics.drop k) ↔
    i.InPlace f o k ∧
      BeginsPublic (o + i.encode.length) is (f.publics.drop (if i.IsBegin then k + 1 else k)) := by
  unfold Code.InPlace
  by_cases hbegin : i.IsBegin
  · rw [if_pos hbegin]
    cases hp : f.publics[k]? with
    | some p =>
      obtain ⟨hk, hget⟩ := List.getElem?_eq_some_iff.1 hp
      rw [List.drop_eq_getElem_cons hk, hget, beginsPublic_cons hbegin]
      simp [hbegin]
    | none =>
      have hk := List.getElem?_eq_none_iff.1 hp
      rw [List.drop_eq_nil_of_le hk, List.drop_eq_nil_of_le (by omega)]
      simp [beginsPublic_nil]
  · rw [if_neg hbegin, beginsPublic_of_not_begin hbegin]
    simp [hbegin]

theorem functionCount_instructionAt (o k n : ℕ) (i : Code) :
    functionCount (pre ++ [(o, i.instructionAt f o k n)]) =
      if i.IsBegin then functionCount pre + 1 else functionCount pre := by
  rw [functionCount, List.countP_append, ← functionCount, List.countP_singleton]
  cases i with
  | beginInst argc locc =>
    rw [Code.instructionAt]
    cases f.publics[k]? <;> rfl
  | _ => rfl

/-- An encoded instruction is read as what was encoded, if it is in its place. -/
theorem readInst_encode (hf : f.Sound) {i : Code} (hi : i.InTable f) (hplace : i.InPlace f o k) :
    ∃ k' strings', (InstReader.readInst f).run ⟨⟨o, i.encode ++ rest⟩, k, strings⟩ =
      .ok (some (i.instructionAt f o k strings.length),
        ⟨⟨o + i.encode.length, rest⟩, k', strings'⟩) := by
  cases i with
  | beginInst argc locc =>
    cases hp : f.publics[k]? with
    | some p =>
      have hread := @run_readInst_public f o rest k strings hf argc locc p hp
      rw [if_pos (hplace trivial p hp)] at hread
      refine ⟨k + 1, strings, hread.trans ?_⟩
      simp only [Code.instructionAt, hp]
    | none =>
      have hread := @run_readInst_private f o rest k strings argc locc (List.getElem?_eq_none_iff.1 hp)
      refine ⟨k + 1, strings, hread.trans ?_⟩
      simp only [Code.instructionAt, hp]
  | _ =>
    obtain ⟨strings', hread⟩ := @run_readInst f o rest k strings _ hi (by simp [Code.IsBegin])
    exact ⟨k, strings', hread⟩

/-- What is read is in its place. -/
theorem inPlace_of_read (hf : f.Sound) {i : Code} {x : Option Instruction × InstReader}
    (h : (InstReader.readInst f).run ⟨⟨o, i.encode ++ rest⟩, k, strings⟩ = .ok x) : i.InPlace f o k := by
  intro hbegin p hp
  cases i with
  | beginInst argc locc =>
    by_contra hne
    rw [run_readInst_public hf hp, if_neg hne] at h
    cases h
  | _ => exact hbegin.elim

/-- A code section is read as what was encoded, if its functions stand at their public symbols. -/
theorem items_encode (hf : f.Sound) (hstop : high stop = 15) (htable : ∀ i ∈ is, i.InTable f)
    (hcounted : Counted f pre r) (hcode : r.cursor = ⟨o, encodeAll is ++ stop :: tail⟩)
    (hbegins : BeginsPublic o is (f.publics.drop (functionCount pre))) :
    ∃ r', Items (InstReader.readInst f) r (Code.located f o pre is) r' := by
  induction is generalizing o pre r with
  | nil =>
    obtain ⟨c, k, strings⟩ := r
    obtain rfl : c = ⟨o, stop :: tail⟩ := hcode
    exact ⟨_, .stop (run_readInst_stop hstop)⟩
  | cons i is ih =>
    obtain ⟨c, k, strings⟩ := r
    obtain rfl : c = ⟨o, i.encode ++ (encodeAll is ++ stop :: tail)⟩ := by
      rw [← List.append_assoc]
      exact hcode
    obtain rfl : k = functionCount pre := hcounted.functions
    obtain rfl : strings = texts pre := hcounted.strings
    obtain ⟨hplace, hrest⟩ := beginsPublic_drop.1 hbegins
    obtain ⟨k', strings', hread⟩ := @readInst_encode f o (functionCount pre) (texts pre)
      (encodeAll is ++ stop :: tail) hf i (htable i (by simp)) hplace
    rw [← functionCount_instructionAt o (functionCount pre) (texts pre).length i] at hrest
    obtain ⟨r', hitems⟩ := ih (fun j hj => htable j (by simp [hj])) (hcounted.step hread) rfl hrest
    exact ⟨r', .item hread hitems⟩

/-- Whatever is read from a code section was encoded there, and the functions stand at their public
symbols. -/
theorem items_of_encode (hf : f.Sound) (hstop : high stop = 15) (htable : ∀ i ∈ is, i.InTable f)
    (hcounted : Counted f pre r) (hcode : r.cursor = ⟨o, encodeAll is ++ stop :: tail⟩)
    (h : Items (InstReader.readInst f) r as r') :
    BeginsPublic o is (f.publics.drop (functionCount pre)) ∧ as = Code.located f o pre is := by
  induction is generalizing o pre r as with
  | nil =>
    obtain ⟨c, k, strings⟩ := r
    obtain rfl : c = ⟨o, stop :: tail⟩ := hcode
    cases h with
    | stop => exact ⟨by simp [BeginsPublic, beginOffsets], rfl⟩
    | item hread => cases hread.symm.trans (run_readInst_stop hstop)
  | cons i is ih =>
    obtain ⟨c, k, strings⟩ := r
    obtain rfl : c = ⟨o, i.encode ++ (encodeAll is ++ stop :: tail)⟩ := by
      rw [← List.append_assoc]
      exact hcode
    obtain rfl : k = functionCount pre := hcounted.functions
    obtain rfl : strings = texts pre := hcounted.strings
    have hplace : i.InPlace f o (functionCount pre) := by
      cases h with
      | stop hread => exact inPlace_of_read hf hread
      | item hread => exact inPlace_of_read hf hread
    obtain ⟨k', strings', hread⟩ := @readInst_encode f o (functionCount pre) (texts pre)
      (encodeAll is ++ stop :: tail) hf i (htable i (by simp)) hplace
    cases h with
    | stop hstop => cases hread.symm.trans hstop
    | item hitem hrest =>
      obtain ⟨hsome, rfl⟩ := Prod.mk.inj (Except.ok.inj (hread.symm.trans hitem))
      obtain rfl := Option.some.inj hsome
      obtain ⟨hbegins, rfl⟩ := ih (fun j hj => htable j (by simp [hj])) (hcounted.step hread) rfl hrest
      rw [functionCount_instructionAt] at hbegins
      exact ⟨beginsPublic_drop.2 ⟨hplace, hbegins⟩, rfl⟩

theorem exists_mapM {α γ : Type} {g : α → Except String γ} {xs : List α}
    (h : ∀ x ∈ xs, ∃ y, g x = .ok y) : ∃ ys, xs.mapM g = .ok ys := by
  induction xs with
  | nil => exact ⟨[], rfl⟩
  | cons x xs ih =>
    obtain ⟨y, hy⟩ := h x (by simp)
    obtain ⟨ys, hys⟩ := ih fun z hz => h z (by simp [hz])
    exact ⟨y :: ys, by rw [List.mapM_cons, hy, ok_bind, hys]; rfl⟩

/-- What can be read makes a module. -/
theorem exists_toModule (hf : f.Sound) (h : Items (InstReader.readInst f) f.reader as r)
    (filename : String) (g : ℤ) : ∃ m, f.toModule filename g = .ok m := by
  have hlength : as.length ≤ f.code.length := h.length_le local_readInst fun _ _ _ => readInst_pos
  obtain ⟨instructions, hloop, -⟩ :=
    items_readLoop (m := ⟨[], .nil⟩) h (Nat.lt_succ_of_le hlength) (by simp)
  have hsymbols : ∀ k ∈ List.range f.publics.length, ∃ s : String × ℕ, (do
      return (← f.getPublicName k, toSizeT (← f.getPublicOffset k)) : Except String _) = .ok s := by
    intro k hk
    have hp := List.getElem?_eq_getElem (List.mem_range.1 hk)
    exact ⟨_, by rw [hf.getPublicName hp, ok_bind, hf.getPublicOffset hp, ok_bind]; rfl⟩
  obtain ⟨publicSymbols, hpublics⟩ := exists_mapM hsymbols
  have hloop' : readLoop f (f.code.length + 1) ⟨[], .nil⟩ ⟨⟨0, f.code⟩, 0, []⟩ =
      .ok (instructions, r) := hloop
  refine ⟨⟨filename, instructions, r.strings, toSizeT g, publicSymbols⟩, ?_⟩
  unfold Bytefile.toModule
  rw [hf.new, ok_bind, hloop', ok_bind, hpublics]
  rfl

/-- **Round trip.**  The reader accepts a code section of encoded instructions just when its first
functions stand at the public symbols, and then the module has the instructions that were encoded, at
their offsets. -/
theorem toModule_encode (hf : f.Sound) (hcode : f.code = encodeAll is ++ stop :: tail)
    (hstop : high stop = 15) (htable : ∀ i ∈ is, i.InTable f) (filename : String) (g : ℤ) :
    ((∃ m, f.toModule filename g = .ok m) ↔ BeginsPublic 0 is f.publics) ∧
    ∀ m, f.toModule filename g = .ok m → m.instructions.entries = Code.located f 0 [] is ∧
      m.strings = texts (Code.located f 0 [] is) := by
  have hreader : f.reader.cursor = ⟨0, encodeAll is ++ stop :: tail⟩ := by rw [← hcode]; rfl
  have hread : ∀ m, f.toModule filename g = .ok m → BeginsPublic 0 is f.publics ∧
      m.instructions.entries = Code.located f 0 [] is ∧ m.strings = texts (Code.located f 0 [] is) := by
    intro m hm
    obtain ⟨⟨r, hitems⟩, hstrings, -⟩ := toModule_accepted hm
    obtain ⟨hbegins, hentries⟩ := items_of_encode hf hstop htable counted_reader hreader hitems
    exact ⟨hbegins, hentries, by rw [hstrings, hentries]⟩
  refine ⟨⟨fun ⟨m, hm⟩ => (hread m hm).1, fun hbegins => ?_⟩, fun m hm => (hread m hm).2⟩
  obtain ⟨r, hitems⟩ := items_encode hf hstop htable counted_reader hreader hbegins
  exact exists_toModule hf hitems filename g

end RoundTrip

/-- A public function with a string. -/
theorem toModule_encode_sample : ∃ m, sampleFile.toModule "sample.bc" 0 = .ok m ∧
    m.instructions.entries = [(0, .beginInst (.inl "main") 0 0), (9, .const 15), (14, .string 0 "ain"),
      (19, .endInst)] ∧ m.strings = ["ain"] := by
  have hbegins : BeginsPublic 0 sample sampleFile.publics := by
    simp [sample, BeginsPublic, beginOffsets, Code.IsBegin, sampleFile]
  have htable : ∀ i ∈ sample, i.InTable sampleFile := by
    simp [sample, Code.InTable, sampleFile, Operand.value]
  have hcode : sampleFile.code = encodeAll sample ++ 255 :: [] := rfl
  obtain ⟨hiff, hmodule⟩ := toModule_encode ⟨by decide, by decide, by decide⟩ hcode (by decide) htable
    "sample.bc" 0
  obtain ⟨m, hm⟩ := hiff.2 hbegins
  obtain ⟨hentries, hstrings⟩ := hmodule m hm
  exact ⟨m, hm, hentries.trans (by decide +kernel), hstrings.trans (by decide +kernel)⟩

end LamaRv
