import LamaRv.Runtime.References

/-!
# Moving the objects (`gc.c`)

The marked objects move down, each to its place.  What is moved has been passed already, and the
objects that are still to come are where they were.

* `Moved`: an object at its place; `Relocating`: the memory in the middle of the loop;
* `relocateLogged`: the loop with what it visits;
* `relocateLogged_spec`, `relocateLoop_spec`: in the end every marked object is at its place.
-/

namespace LamaRv.Gc

/-! ### Moving one object -/

/-- The bytes of an object have been copied, and the object is not marked. -/
structure Moved (bytes : ℕ) (m : Mem) (src : ℕ) (m' : Mem) (dst : ℕ) : Prop where
  header : m' dst = m src
  collector : m' (dst + 8) = resetMarkBit (m (src + 8))
  content : ∀ k, 16 ≤ k → k + 8 ≤ bytes → m' (dst + k) = m (src + k)
  last : ∀ k, 16 ≤ k → k < bytes → bytes < k + 8 →
    m' (dst + k) % 256 ^ (bytes - k) = m (src + k) % 256 ^ (bytes - k)

section Moved

variable {bytes src dst : ℕ} {m m' m'' : Mem}

theorem mergeBytes_mod (k old new : ℕ) : Mem.mergeBytes k old new % 256 ^ k = new % 256 ^ k := by
  rw [Mem.mergeBytes, Nat.add_mul_mod_self_right, Nat.mod_mod]

theorem move_word {k : ℕ} (hk : k + 8 ≤ bytes) : m.move dst src bytes (dst + k) = m (src + k) := by
  rw [Mem.move, if_pos (by omega), if_pos (by omega), Nat.add_sub_cancel_left]

theorem move_header (hb : 16 ≤ bytes) : m.move dst src bytes dst = m src :=
  move_word (k := 0) (by omega)

theorem move_last {k : ℕ} (hk : k < bytes) (hlast : bytes < k + 8) :
    m.move dst src bytes (dst + k) % 256 ^ (bytes - k) = m (src + k) % 256 ^ (bytes - k) := by
  rw [Mem.move, if_pos (by omega), if_neg (by omega), Nat.add_sub_cancel_left, Nat.add_sub_add_left,
    mergeBytes_mod]

theorem move_frame {a : ℕ} (h : a < dst ∨ dst + bytes ≤ a) : m.move dst src bytes a = m a := by
  rw [Mem.move, if_neg (by omega)]

/-- Moving an object and unmarking it. -/
theorem moved_of_move (hb : 16 ≤ bytes) :
    Moved bytes m src (unmarkObject (m.move dst src bytes) (dst + 16)) dst := by
  have hother : ∀ k, k ≠ 8 →
      unmarkObject (m.move dst src bytes) (dst + 16) (dst + k) = m.move dst src bytes (dst + k) := by
    intro k hk
    rw [unmarkObject, forwardWord_content, Mem.set_of_ne _ _ (by omega)]
  refine ⟨?_, ?_, fun k hk hle => ?_, fun k hk hlt hlast => ?_⟩
  · exact (hother 0 (by omega)).trans (move_header hb)
  · rw [unmarkObject, forwardWord_content, Mem.set_self, move_word (by omega)]
  · rw [hother k (by omega), move_word hle]
  · rw [hother k (by omega), move_last hlt hlast]

theorem frame_moved {a : ℕ} (hb : 16 ≤ bytes) (h : a < dst ∨ dst + bytes ≤ a) :
    unmarkObject (m.move dst src bytes) (dst + 16) a = m a := by
  rw [unmarkObject, forwardWord_content, Mem.set_of_ne _ _ (by omega), move_frame h]

theorem Moved.congr (h : Moved bytes m src m' dst) (hb : 16 ≤ bytes)
    (hm : ∀ k < bytes, m'' (dst + k) = m' (dst + k)) : Moved bytes m src m'' dst := by
  refine ⟨(hm 0 (by omega)).trans h.header, (hm 8 (by omega)).trans h.collector,
    fun k hk hle => ?_, fun k hk hlt hlast => ?_⟩
  · rw [hm k (by omega), h.content k hk hle]
  · rw [hm k hlt, h.last k hk hlt hlast]

/-- Only what is moved matters. -/
theorem Moved.of_source (h : Moved bytes m src m' dst) (hb : 16 ≤ bytes)
    (hm : ∀ k < bytes, m (src + k) = m'' (src + k)) : Moved bytes m'' src m' dst := by
  refine ⟨h.header.trans (hm 0 (by omega)), h.collector.trans (by rw [hm 8 (by omega)]),
    fun k hk hle => ?_, fun k hk hlt hlast => ?_⟩
  · rw [h.content k hk hle, hm k (by omega)]
  · rw [h.last k hk hlt hlast, hm k hlt]

end Moved

/-! ### The visits -/

section Visits

/-- The loop of `physically_relocate` with its visits: at each one, where the iterator is and what the
memory holds. -/
def relocateLogged (heap oldHeap : MemoryChunk) : ℕ → ℕ → Mem → Option (List (ℕ × Mem) × Mem)
  | 0, _, _ => none
  | n + 1, fromIter, m =>
    if fromIter ≥ heap.current then some ([], m)
    else do
      let obj ← getObjectContentPtr m fromIter
      let nextIter ← heapNextObjIterator m fromIter
      if isMarked m obj then
        let dst := heap.begin + (getForwardAddress m obj - oldHeap.begin)
        let m' := m.move dst fromIter (← objSizeHeaderPtr m fromIter)
        let m' := unmarkObject m' (← getObjectContentPtr m' dst)
        let (visits, m') ← relocateLogged heap oldHeap n nextIter m'
        return ((fromIter, m) :: visits, m')
      else
        let (visits, m') ← relocateLogged heap oldHeap n nextIter m
        return ((fromIter, m) :: visits, m')

/-- Without its visits the loop is that of the code. -/
theorem relocateLogged_map (heap oldHeap : MemoryChunk) (n fromIter : ℕ) (m : Mem) :
    (relocateLogged heap oldHeap n fromIter m).map Prod.snd =
      relocateLoop heap oldHeap n fromIter m := by
  induction n generalizing fromIter m with
  | zero => rfl
  | succ n ih =>
    rw [relocateLogged, relocateLoop]
    by_cases hdone : fromIter ≥ heap.current
    · rw [if_pos hdone, if_pos hdone, Option.map_some]
    · rw [if_neg hdone, if_neg hdone]
      rcases getObjectContentPtr m fromIter with _ | obj
      · rfl
      rcases heapNextObjIterator m fromIter with _ | nextIter
      · rfl
      by_cases hmarked : isMarked m obj = true
      · simp [hmarked, ← ih, Option.map_eq_bind, Option.bind_assoc]
      · simp [hmarked, ← ih, Option.map_eq_bind, Option.bind_assoc]

end Visits

/-! ### The loop -/

/-- In the middle of the loop: the marked objects of `done` are at their places, and from the next
object on, and below the chunk, nothing has changed. -/
structure Relocating (heap heap' : MemoryChunk) (os : List ℕ) (m₀ : Mem) (marked : List ℕ)
    (m₅ : Mem) (done : List ℕ) (next : ℕ) (m : Mem) : Prop where
  moved : ∀ o ∈ done, o ∈ marked → Moved (objBytes m₀ o) m₅ (shift heap heap' o) m
    (placeIn heap'.begin m₀ (keptOf os marked) o)
  ahead : ∀ a, shift heap heap' next ≤ a → m a = m₅ a
  below : ∀ a, a < heap'.begin → m a = m₅ a

section Relocating

variable {heap heap' : MemoryChunk} {m₀ m₅ m : Mem} {os marked roots done rest : List ℕ} {o next : ℕ}

/-- A marked object moves down. -/
theorem placeIn_le_shift (hos : Placed heap m₀ os) (ho : o ∈ os) (hmarked : o ∈ marked) :
    placeIn heap'.begin m₀ (keptOf os marked) o ≤ shift heap heap' o := by
  have := hos.objects.wordsBefore_filter_le (· ∈ marked) ho (by simpa using hmarked)
  unfold placeIn shift keptOf
  omega

/-- The places do not overlap. -/
theorem placeIn_apart (hos : Placed heap m₀ os) {o' : ℕ} {base : ℕ} (ho : o ∈ keptOf os marked)
    (ho' : o' ∈ keptOf os marked) (hne : o ≠ o') :
    placeIn base m₀ (keptOf os marked) o + 8 * objWords m₀ o ≤
        placeIn base m₀ (keptOf os marked) o' ∨
      placeIn base m₀ (keptOf os marked) o' + 8 * objWords m₀ o' ≤
        placeIn base m₀ (keptOf os marked) o := by
  have := @wordsBefore_apart m₀ (keptOf os marked) o o' (hos.objects.nodup.filter _) ho ho' hne
  unfold placeIn
  omega

theorem mem_keptOf : o ∈ keptOf os marked ↔ o ∈ os ∧ o ∈ marked := by simp [keptOf]

/-- One object that stays behind. -/
theorem Relocating.skip (h : Relocating heap heap' os m₀ marked m₅ done o m) (ho : heap.begin ≤ o)
    (hmarked : o ∉ marked) :
    Relocating heap heap' os m₀ marked m₅ (done ++ [o]) (o + 8 * objWords m₀ o) m := by
  refine ⟨fun x hx hx' => ?_, fun a ha => h.ahead a ?_, h.below⟩
  · refine h.moved x ((List.mem_append.1 hx).resolve_right fun hx => hmarked ?_) hx'
    rwa [← List.mem_singleton.1 hx]
  · rw [shift_add ho] at ha
    omega

/-- One object that is moved. -/
theorem Relocating.move (hos : Placed heap m₀ os) (hsplit : os = done ++ o :: rest)
    (hmarked : o ∈ marked) (h : Relocating heap heap' os m₀ marked m₅ done o m) :
    Relocating heap heap' os m₀ marked m₅ (done ++ [o]) (o + 8 * objWords m₀ o)
      (unmarkObject (m.move (placeIn heap'.begin m₀ (keptOf os marked) o) (shift heap heap' o)
        (objBytes m₀ o)) (placeIn heap'.begin m₀ (keptOf os marked) o + 16)) := by
  have ho : o ∈ os := by simp [hsplit]
  have hs := hos.objects.sound o ho
  have hbytes := hs.bytes_le_words
  have hle : placeIn heap'.begin m₀ (keptOf os marked) o ≤ shift heap heap' o :=
    placeIn_le_shift hos ho hmarked
  refine ⟨fun x hx hx' => ?_, fun a ha => ?_, fun a ha => ?_⟩
  · rcases List.mem_append.1 hx with hx | hx
    · -- an object that has been moved before
      have hxo : x ≠ o := by
        have := hos.objects.nodup
        rw [hsplit] at this
        intro heq
        exact List.disjoint_of_nodup_append this hx (heq ▸ List.mem_cons_self)
      have hx₀ : x ∈ os := by simp [hsplit, hx]
      have hsx := hos.objects.sound x hx₀
      have hbx := hsx.bytes_le_words
      have hapart := @placeIn_apart heap m₀ os marked x hos o heap'.begin (mem_keptOf.2 ⟨hx₀, hx'⟩)
        (mem_keptOf.2 ⟨ho, hmarked⟩) hxo
      refine (h.moved x hx hx').congr hsx.le_bytes fun k hk => frame_moved hs.le_bytes ?_
      omega
    · rw [List.mem_singleton.1 hx]
      exact (moved_of_move hs.le_bytes).of_source hs.le_bytes fun k _ => h.ahead _ (by omega)
  · rw [shift_add (hos.objects.bounds o ho).1] at ha
    rw [frame_moved hs.le_bytes (by omega)]
    exact h.ahead a (by omega)
  · rw [frame_moved hs.le_bytes (by unfold placeIn; omega)]
    exact h.below a ha

/-- What the loop reads of the objects: their headers, whether they are marked, and their places. -/
structure Guided (heap heap' : MemoryChunk) (os : List ℕ) (m₀ : Mem) (marked : List ℕ) (m : Mem) :
    Prop where
  header : ∀ o ∈ os, m (shift heap heap' o) = m₀ o
  mark : ∀ o ∈ os, isMarked m (shift heap heap' o + 16) = true ↔ o ∈ marked
  forward : ∀ o ∈ os, o ∈ marked → getForwardAddress m (shift heap heap' o + 16) =
    placeIn heap.begin m₀ (keptOf os marked) o

theorem Readable.guided (h : Readable heap heap' os m₀ marked m) : Guided heap heap' os m₀ marked m :=
  ⟨h.header, h.mark, h.forward⟩

/-- One object is visited, and the loop goes on at the next. -/
theorem relocateLogged_step (hos : Placed heap m₀ os) (hread : Guided heap heap' os m₀ marked m₅)
    (hcurrent : heap'.current = shift heap heap' heap.current) (hsplit : os = done ++ o :: rest)
    (h : Relocating heap heap' os m₀ marked m₅ done o m) :
    ∃ m', Relocating heap heap' os m₀ marked m₅ (done ++ [o]) (o + 8 * objWords m₀ o) m' ∧
      ∀ n visits m'', relocateLogged heap' heap n (shift heap heap' (o + 8 * objWords m₀ o)) m' =
          some (visits, m'') →
        relocateLogged heap' heap (n + 1) (shift heap heap' o) m =
          some ((shift heap heap' o, m) :: visits, m'') := by
  have ho : o ∈ os := by simp [hsplit]
  have hs := hos.objects.sound o ho
  have hbounds := hos.objects.bounds o ho
  have hheader : m (shift heap heap' o) = m₀ o := (h.ahead _ le_rfl).trans (hread.header o ho)
  have hword : m (forwardWord (shift heap heap' o + 16)) =
      m₅ (forwardWord (shift heap heap' o + 16)) := by
    rw [forwardWord_content]
    exact h.ahead _ (by omega)
  have hsound := hs.congr hheader
  have hmore : ¬ shift heap heap' o ≥ heap'.current := by
    have := hs.two_le_words
    rw [hcurrent]
    unfold shift
    omega
  have hnextIter : heapNextObjIterator m (shift heap heap' o) =
      some (shift heap heap' (o + 8 * objWords m₀ o)) := by
    rw [hsound.heapNextObjIterator, objWords_congr hheader, shift_add hbounds.1]
  have hmark : isMarked m (shift heap heap' o + 16) = true ↔ o ∈ marked := by
    rw [← hread.mark o ho, isMarked, isMarked, hword]
  by_cases hmarked : o ∈ marked
  · have hdst : heap'.begin + (getForwardAddress m (shift heap heap' o + 16) - heap.begin) =
        placeIn heap'.begin m₀ (keptOf os marked) o := by
      have := hread.forward o ho hmarked
      rw [getForwardAddress, ← hword, ← getForwardAddress] at this
      rw [this]
      unfold placeIn
      omega
    have hmoved : Sound (m.move (placeIn heap'.begin m₀ (keptOf os marked) o)
        (shift heap heap' o) (objBytes m₀ o)) (placeIn heap'.begin m₀ (keptOf os marked) o) :=
      hs.congr ((move_header hs.le_bytes).trans hheader)
    refine ⟨_, h.move hos hsplit hmarked, fun n visits m'' hloop => ?_⟩
    rw [relocateLogged, if_neg hmore]
    simp only [hsound.getObjectContentPtr, hnextIter, hmark.2 hmarked, hdst,
      hsound.objSizeHeaderPtr, objBytes_congr hheader, hmoved.getObjectContentPtr, hloop,
      Option.bind_eq_bind, Option.bind_some, Option.pure_def, if_true]
  · have hunmarked : isMarked m (shift heap heap' o + 16) = false := by
      rwa [← Bool.not_eq_true, hmark]
    refine ⟨m, h.skip hbounds.1 hmarked, fun n visits m'' hloop => ?_⟩
    rw [relocateLogged, if_neg hmore]
    simp only [hsound.getObjectContentPtr, hnextIter, hunmarked, hloop, Option.bind_eq_bind,
      Option.bind_some, Option.pure_def, Bool.false_eq_true, if_false]

/-- The loop visits the objects in their order, each one when nothing from it on has changed, and it
moves all that are marked. -/
theorem relocateLogged_spec (hos : Placed heap m₀ os) (hread : Guided heap heap' os m₀ marked m₅)
    (hcurrent : heap'.current = shift heap heap' heap.current) {n : ℕ} (hn : os.length < n) :
    ∃ visits m, relocateLogged heap' heap n heap'.begin m₅ = some (visits, m) ∧
      visits.map Prod.fst = os.map (shift heap heap') ∧
      (∀ v ∈ visits, ∀ a, v.1 ≤ a → v.2 a = m₅ a) ∧
      Relocating heap heap' os m₀ marked m₅ os heap.current m := by
  have key : ∀ rest done n next m, os = done ++ rest → Objects m₀ next rest heap.current →
      rest.length < n → Relocating heap heap' os m₀ marked m₅ done next m →
      ∃ visits m', relocateLogged heap' heap n (shift heap heap' next) m = some (visits, m') ∧
        visits.map Prod.fst = rest.map (shift heap heap') ∧
        (∀ v ∈ visits, ∀ a, v.1 ≤ a → v.2 a = m₅ a) ∧
        Relocating heap heap' os m₀ marked m₅ os heap.current m' := by
    intro rest
    induction rest with
    | nil =>
      intro done n next m hsplit hobjects hn hm
      obtain ⟨n, rfl⟩ := Nat.exists_eq_add_one.2 (Nat.zero_lt_of_lt hn)
      cases hobjects
      rw [List.append_nil] at hsplit
      refine ⟨[], m, ?_, rfl, by simp, hsplit ▸ hm⟩
      rw [relocateLogged, hcurrent, if_pos le_rfl]
    | cons o rest ih =>
      intro done n next m hsplit hobjects hn hm
      obtain ⟨n, rfl⟩ := Nat.exists_eq_add_one.2 (Nat.zero_lt_of_lt hn)
      rw [List.length_cons] at hn
      cases hobjects with
      | cons _ hobjects =>
        have hsplit' : os = (done ++ [o]) ++ rest := by rw [hsplit, List.append_assoc]; rfl
        obtain ⟨m', hm', hstep⟩ := relocateLogged_step hos hread hcurrent hsplit hm
        obtain ⟨visits, m'', hloop, hvisits, hahead, hm''⟩ :=
          ih (done ++ [o]) n _ m' hsplit' hobjects (by omega) hm'
        refine ⟨_, m'', hstep n visits m'' hloop, ?_, ?_, hm''⟩
        · rw [List.map_cons, List.map_cons, hvisits]
        · intro v hv
          rcases List.mem_cons.1 hv with rfl | hv
          · exact hm.ahead
          · exact hahead v hv
  have hbegin : shift heap heap' heap.begin = heap'.begin := by simp [shift]
  rw [← hbegin]
  exact key os [] n heap.begin m₅ rfl hos.objects hn ⟨by simp, fun _ _ => rfl, fun _ _ => rfl⟩

theorem relocateLoop_spec (hos : Formed heap m₀ os)
    (hread : Readable heap heap' os m₀ marked m₅)
    (hcurrent : heap'.current = shift heap heap' heap.current) {n : ℕ} (hn : os.length < n) :
    ∃ m, relocateLoop heap' heap n heap'.begin m₅ = some m ∧
      Relocating heap heap' os m₀ marked m₅ os heap.current m := by
  obtain ⟨visits, m, hrun, -, -, hm⟩ :=
    relocateLogged_spec hos.placed hread.guided hcurrent hn
  exact ⟨m, by rw [← relocateLogged_map, hrun, Option.map_some], hm⟩

end Relocating

end LamaRv.Gc
