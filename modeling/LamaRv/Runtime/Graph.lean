import LamaRv.Runtime.Strings

/-!
# The objects before and after a collection (`gc.c`)

A collection keeps the objects that the roots reach, in their order, and the references between them.

* `SameGraph`: the objects that are reached have gone to their places, with their contents, and
  what pointed to them points to their places;
* `collect_sameGraph`: so it is after a collection, if the size of the new heap in bytes is a number of
  64 bits.
-/

namespace LamaRv.Gc

open Marking WordBytes

/-- The objects of `s'` are those of `s` that the roots reach, in their order, each one at its place.
They have the same contents, but for the pointers, which follow the objects. -/
structure SameGraph (s s' : State) (os kept : List ℕ) (place : ℕ → ℕ) : Prop where
  sublist : kept.Sublist os
  live : ∀ o, o ∈ kept ↔ Live s o
  objects : Objects s'.mem s'.heap.begin (kept.map place) s'.heap.current
  increasing : ∀ o ∈ kept, ∀ o' ∈ kept, o < o' → place o < place o'
  unmarked : ∀ o ∈ kept, isMarked s'.mem (place o + 16) = false
  dequeued : ∀ o ∈ kept, isEnqueued s'.mem (place o + 16) = false
  header : ∀ o ∈ kept, s'.mem (place o) = s.mem o
  pointer : ∀ o ∈ kept, ∀ k, o + k ∈ fields s.mem o →
    isValidHeapPointer s.heap (s.mem (o + k)) = true →
      s.mem (o + k) - 16 ∈ kept ∧ s'.mem (place o + k) = place (s.mem (o + k) - 16) + 16
  word : ∀ o ∈ kept, ∀ k, 16 ≤ k → k + 8 ≤ objBytes s.mem o →
    (o + k ∈ fields s.mem o → isValidHeapPointer s.heap (s.mem (o + k)) = false) →
      s'.mem (place o + k) = s.mem (o + k)
  byte : ∀ o ∈ kept, getTypeHeaderPtr s.mem o = some .string → ∀ i ≤ len (s.mem o),
    byteAt s'.mem (place o + 16 + i) = byteAt s.mem (o + 16 + i)
  targets : (∀ o ∈ kept, ∀ f ∈ fields s.mem o, isValidHeapPointer s.heap (s.mem f) = false →
      isValidHeapPointer s'.heap (s.mem f) = false) →
    ∀ o ∈ kept, targets s'.heap s'.mem (place o) = (targets s.heap s.mem o).map place
  roots : ∀ a ∈ rootWords s, s'.mem a = image s.heap place (s.mem a)

section SameGraph

variable {s s' : State} {os kept : List ℕ} {place : ℕ → ℕ} {additionalSize : ℕ} {m m' : Mem} {o o' : ℕ}

/-- The fields of two objects with the same header. -/
theorem fields_place (h : m' o' = m o) : fields m' o' = (fields m o).map fun f => o' + (f - o) := by
  have hplace : (fun i => fieldStart m' o' + 8 * i) =
      (fun f => o' + (f - o)) ∘ fun i => fieldStart m o + 8 * i := by
    funext i
    simp only [Function.comp_apply, fieldStart, fieldOffset_congr h]
    omega
  rw [fields, fields, fieldCount_congr h, hplace, List.map_map]

/-- Places that are taken one after the other are in the order of the objects. -/
theorem increasing_of_pairwise (hold : kept.Pairwise (· < ·)) (hnew : (kept.map place).Pairwise (· < ·)) :
    ∀ o ∈ kept, ∀ o' ∈ kept, o < o' → place o < place o' := by
  intro o ho o' ho'
  refine List.Pairwise.forall_of_forall_of_flip (R := fun o o' => o < o' → place o < place o')
    (fun o _ hlt => absurd hlt (lt_irrefl o)) ?_ ?_ ho ho'
  · refine (List.pairwise_map.1 hnew).imp ?_
    exact fun hlt _ => hlt
  · exact hold.imp fun hlt hlt' => absurd hlt' hlt.asymm

theorem Objects.sorted {a e : ℕ} (h : Objects m a os e) : os.Pairwise (· < ·) := by
  refine h.pairwise.imp_of_mem fun {o o'} ho _ hle => ?_
  have := (h.sound o ho).two_le_words
  omega

/-- Where an object goes, its fields point to where the objects go to which they have pointed. -/
theorem targets_place (hsame : ∀ f ∈ fields m o, m' (o' + (f - o)) = image s.heap place (m f))
    (hheader : m' o' = m o)
    (hvalid : ∀ f ∈ fields m o, isValidHeapPointer s'.heap (image s.heap place (m f)) =
      isValidHeapPointer s.heap (m f)) :
    targets s'.heap m' o' = (targets s.heap m o).map place := by
  rw [targets, targets, targetsOf, targetsOf, fields_place hheader, List.filterMap_map, List.map_filterMap]
  refine List.filterMap_congr fun f hf => ?_
  rw [Function.comp_apply, hsame f hf, hvalid f hf]
  by_cases hptr : isValidHeapPointer s.heap (m f) = true
  · rw [if_pos hptr, if_pos hptr, image_of_valid hptr, Nat.add_sub_cancel]
    rfl
  · rw [if_neg hptr, if_neg hptr]
    rfl

/-- A collection in which the roots that hold a pointer are updated. -/
theorem Collected.sameGraph (hc : Collected s os kept additionalSize s') (h : Collectable s os)
    (hroots : ∀ a ∈ rootWords s, isValidHeapPointer s.heap (s.mem a) = true → a ∈ fixedWords s) :
    SameGraph s s' os kept (newPlace s s' kept) := by
  have hsound : ∀ o ∈ kept, Sound s.mem o := fun o ho => h.formed.objects.sound o (hc.sublist.subset ho)
  have hpointer : ∀ o ∈ kept, ∀ f ∈ fields s.mem o, isValidHeapPointer s.heap (s.mem f) = true →
      s.mem f - 16 ∈ kept := by
    intro o ho f hf hvalid
    exact hc.closed o ho _ (List.mem_filterMap.2 ⟨f, hf, if_pos hvalid⟩)
  have hfield : ∀ o ∈ kept, ∀ k, o + k ∈ fields s.mem o →
      s'.mem (newPlace s s' kept o + k) = image s.heap (newPlace s s' kept) (s.mem (o + k)) := by
    intro o ho k hf
    obtain ⟨hlow, hhigh⟩ := (hsound o ho).field_bounds _ hf
    rw [hc.content o ho k (by omega) (by omega), if_pos hf]
    rfl
  have hplace : ∀ o ∈ kept, isValidHeapPointer s'.heap (newPlace s s' kept o + 16) = true := by
    intro o ho
    have hmem : newPlace s s' kept o ∈ kept.map (newPlace s s' kept) := List.mem_map_of_mem ho
    have halign := (hc.objects.aligned hc.fresh.aligned).1 _ hmem
    refine hc.objects.valid_of_mem hmem ?_
    rw [← Bool.not_eq_true, unboxed_iff]
    omega
  refine
    { sublist := hc.sublist
      live := hc.live
      objects := hc.objects
      increasing := increasing_of_pairwise (h.formed.objects.sorted.sublist hc.sublist) hc.objects.sorted
      unmarked := hc.unmarked
      dequeued := hc.dequeued
      header := hc.header
      pointer := fun o ho k hf hvalid => ⟨hpointer o ho _ hf hvalid, ?_⟩
      word := fun o ho k hk hle hword => ?_
      byte := fun o ho ht i hi => ?_
      targets := fun hclear o ho => ?_
      roots := fun a ha => ?_ }
  · rw [hfield o ho k hf, image_of_valid hvalid]
  · by_cases hf : o + k ∈ fields s.mem o
    · rw [hfield o ho k hf, image_of_not_valid (Bool.eq_false_iff.1 (hword hf))]
    · rw [hc.content o ho k hk hle, if_neg hf]
  · exact hc.relocates.survives.byte ho ht ((h.formed.objects.aligned h.formed.aligned).1 o
      (hc.sublist.subset ho)) ((hc.objects.aligned hc.fresh.aligned).1 _ (List.mem_map_of_mem ho)) hi
  · refine targets_place (fun f hf => ?_) (hc.header o ho) fun f hf => ?_
    · have hlow := ((hsound o ho).field_bounds f hf).1
      obtain ⟨k, rfl⟩ := Nat.exists_eq_add_of_le (show o ≤ f by omega)
      rw [Nat.add_sub_cancel_left]
      exact hfield o ho k hf
    · by_cases hvalid : isValidHeapPointer s.heap (s.mem f) = true
      · rw [image_of_valid hvalid, hvalid]
        exact hplace _ (hpointer o ho f hf hvalid)
      · rw [image_of_not_valid hvalid, Bool.eq_false_iff.2 hvalid]
        exact hclear o ho f hf (Bool.eq_false_iff.2 hvalid)
  · by_cases hfixed : a ∈ fixedWords s
    · exact hc.roots a hfixed
    · rw [hc.root_same h ha hfixed, image_of_not_valid (mt (hroots a ha) hfixed)]

/-- **A collection** comes to an end, unless there is no memory for the new heap, and keeps the graph of
the objects that the roots reach. -/
theorem collect_sameGraph {mmap : ℕ → Option ℕ} (h : Collectable s os) (hr : RootWords s)
    (hbottom : isValidHeapPointer s.heap (s.mem s.gcStackBottom) = false)
    (htop : s.gcStackTop ∉ s.extraRoots) (hstop : s.stopCustomData ∉ s.extraRoots)
    (hsize : Roomy s os additionalSize)
    (hmmap : ∀ n begin, mmap (8 * n) = some begin → Fresh s begin n) :
    (∃ n, mmap (8 * n) = none ∧ collect mmap s additionalSize = none) ∨
      ∃ kept s' place, collect mmap s additionalSize = some s' ∧ SameGraph s s' os kept place := by
  have hclear : EdgesClear s fun a => isValidHeapPointer s.heap (s.mem a) = true := by
    refine ⟨fun _ hvalid => ?_, fun hextra => absurd hextra htop, fun hextra => absurd hextra hstop⟩
    rw [hbottom] at hvalid
    cases hvalid
  have hsame := (edgesClear_iff hr _).2 hclear
  have hroots : Rooted s := ⟨hr.outside, fun a ha hvalid => (hsame a hvalid).2 ha, hr.data⟩
  rcases collect_spec h hroots hsize hmmap with hnone | ⟨kept, s', hcollect, -, hc⟩
  · exact .inl hnone
  · exact .inr ⟨kept, s', _, hcollect, hc.sameGraph h fun a ha hvalid => (hsame a hvalid).1 ha⟩

end SameGraph

/-! ### Two arrays -/

/-- Two arrays that refer to one another, and an extra root. -/
theorem collect_sameGraph_twoArrays : ∃ kept s' place,
    collect (fun _ => some 16384) (rootState 4104) 4 = some s' ∧
      SameGraph (rootState 4104) s' [1024, 1056] kept place := by
  have hroot : 4104 ∈ [4096, 4104] := by decide
  have hcollectable := rootState_collectable _ hroot
  have hsize : Roomy (rootState 4104) [1024, 1056] 4 := .of_size hcollectable.formed (by decide)
  have hfresh : ∀ n begin, some 16384 = some begin → Fresh (rootState 4104) begin n :=
    fun n begin hbegin => Option.some.inj hbegin ▸ rootState_fresh _ hroot n
  rcases @collect_sameGraph _ _ _ (fun _ => some 16384) hcollectable (rootState_words _ hroot)
    (by decide) (by decide) (by decide) hsize hfresh with ⟨n, hnone, -⟩ | hsame
  · cases hnone
  · exact hsame

/-- Two arrays in a heap of two pages, and a stack of two words. -/
def pagesState : State where
  mem := fun a =>
    match a with
    | 8192 => 19
    | 8208 => 8240
    | 8216 => 8208
    | 8224 => 3
    | 69640 => 8208
    | _ => 0
  heap := ⟨8192, 16384, 8240, 1024⟩
  gcStackTop := 69632
  gcStackBottom := 69648
  extraRoots := []
  startCustomData := 4096
  stopCustomData := 4096

theorem pagesState_collectable : Collectable pagesState [8192, 8224] := by
  have hroots : ∀ a ∈ rootWords pagesState, 8240 ≤ a ∧
      (isValidHeapPointer pagesState.heap (pagesState.mem a) = true →
        ∃ o ∈ [8192, 8224], pagesState.mem a = o + 16) := by decide
  exact ⟨by decide, by decide, by decide, fun a ha => .inr (hroots a ha).1, fun a ha => (hroots a ha).2⟩

theorem pagesState_words : RootWords pagesState :=
  have hout : ∀ a ∈ fixedWords pagesState, 8240 ≤ a := by decide
  ⟨fun a ha => .inr (hout a ha), le_rfl, by decide, by decide, by decide, by decide, by decide⟩

/-- A page for twelve words.  The stack begins at the next page. -/
def pageBelowStack (bytes : ℕ) : Option ℕ := if bytes = 96 then some 65536 else none

theorem pageBelowStack_fresh : ∀ n begin, pageBelowStack (8 * n) = some begin →
    Fresh pagesState begin n := by
  have hhigh : ∀ a ∈ rootWords pagesState ++ fixedWords pagesState, 69632 ≤ a := by decide
  intro n begin hbegin
  obtain ⟨hn, rfl⟩ := Option.ite_some_none_eq_some.1 hbegin
  have hheap : 8192 + 8 * 1024 ≤ 65536 := by decide
  refine ⟨by decide, .inr hheap, fun a ha => .inr ?_⟩
  have := hhigh a (List.mem_append.2 ha)
  omega

/-- The kernel is asked for the memory of twelve words, and the copy of the old heap goes over the end
of the page and covers the stack. -/
theorem not_sameGraph : ¬ ∀ s os additionalSize mmap, Collectable s os → RootWords s →
    isValidHeapPointer s.heap (s.mem s.gcStackBottom) = false → s.gcStackTop ∉ s.extraRoots →
    s.stopCustomData ∉ s.extraRoots →
    (∀ n begin, mmap (8 * n) = some begin → Fresh s begin n) →
    (∃ n, mmap (8 * n) = none ∧ collect mmap s additionalSize = none) ∨
      ∃ kept s' place, collect mmap s additionalSize = some s' ∧ SameGraph s s' os kept place := by
  intro h
  have hrun : (collect pageBelowStack pagesState (2 ^ 61)).map (fun s' => s'.mem 69640) = some 0 := by
    decide +kernel
  obtain ⟨s', hcollect, hzero⟩ := Option.map_eq_some_iff.1 hrun
  rcases h pagesState [8192, 8224] (2 ^ 61) pageBelowStack pagesState_collectable pagesState_words
    (by decide) (by decide) (by decide) pageBelowStack_fresh with
    ⟨n, -, hnone⟩ | ⟨kept, s'', place, hcollect', hsame⟩
  · rw [hcollect] at hnone
    cases hnone
  · obtain rfl := Option.some.inj (hcollect.symm.trans hcollect')
    have hword := hsame.roots 69640 (by decide)
    rw [hzero, image_of_valid (by decide)] at hword
    omega

end LamaRv.Gc
