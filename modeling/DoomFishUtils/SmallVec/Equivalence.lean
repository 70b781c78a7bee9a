import DoomFishUtils.SmallVec.Refinement

/-!
# Runs of small vectors and of lists

The source's vectors and the plain lists go in lock step, with the same answers and panics and the
same elements after every action.
-/

namespace DoomFishUtils.SmallVec

set_option autoImplicit false

open Library
open ArrayVec (usizeMax)

variable {T σ : Type} {N : ℕ}

/-- The vectors that stand for lists, with the same history. -/
structure World.Represents (N : ℕ) (world : World T σ (SmallVec T)) (plain : World T σ (List T)) :
    Prop where
  vecs : List.Forall₂ (SmallVec.Represents N) world.vecs plain.vecs
  log : world.log = plain.log

/-- A defined state that stands for lists. -/
def StateRepresents (N : ℕ) (state : Option (World T σ (SmallVec T)))
    (plain : Option (World T σ (List T))) : Prop :=
  ∃ world lists, state = some world ∧ plain = some lists ∧ world.Represents N lists

variable {world : World T σ (SmallVec T)} {plain : World T σ (List T)}

lemma World.Represents.made (h : world.Represents N plain) {vec : SmallVec T} {items : List T}
    (hvec : vec.Represents N items) :
    (world.made (.ok vec)).Represents N (plain.made (.ok items)) :=
  ⟨.cons hvec h.vecs, congrArg _ h.log⟩

/-- The two implementations go in lock step. -/
lemma World.Represents.next (h : world.Represents N plain) (hN : N ≤ usizeMax)
    (action : Action T σ) :
    Option.Rel (StateRepresents N) (world.next (smallImpl T σ N) action)
      (plain.next (listImpl T σ) action) := by
  rcases action with source | ⟨index, op⟩ | ⟨index, copy⟩ | ⟨index, ends⟩ <;>
    unfold World.next <;> dsimp only
  case make =>
    rcases smallMake_represents hN source with ⟨vec, hmake, hvec⟩
    exact .some ⟨_, _, congrArg (Option.map world.made) hmake, rfl, h.made hvec⟩
  case apply =>
    refine rel_map (forall₂_getElem? h.vecs index) fun vec items hrep => ?_
    rcases hrep.apply hN op with ⟨after, happly, hafter⟩
    refine ⟨_, _, congrArg (Option.map (world.applied index)) happly, rfl, ?_⟩
    exact ⟨forall₂_set h.vecs hafter.represents index, congrArg _ h.log⟩
  case clone =>
    refine rel_map (forall₂_getElem? h.vecs index) fun vec items hrep => ?_
    rcases hrep.clone hN copy with ⟨made, hclone, hmade⟩
    exact ⟨_, _, congrArg (Option.map world.made) hclone, rfl, h.made hmade⟩
  case intoIter =>
    refine rel_map (forall₂_getElem? h.vecs index) fun vec items hrep => ?_
    have hyield := hrep.intoIter.consume ends
    refine ⟨_, _, congrArg (Option.map (world.yielded index)) hyield, rfl, ?_⟩
    exact ⟨forall₂_eraseIdx h.vecs index, congrArg _ h.log⟩

lemma World.Represents.asSlice (h : world.Represents N plain) :
    world.vecs.map (asSlice N) = plain.vecs.map some := by
  have hslices : ∀ {vecs : List (SmallVec T)} {lists : List (List T)},
      List.Forall₂ (SmallVec.Represents N) vecs lists →
        vecs.map (SmallVec.asSlice N) = lists.map some := by
    intro vecs lists hvecs
    induction hvecs with
    | nil => rfl
    | cons hvec _ ih => rw [List.map_cons, List.map_cons, hvec.asSlice, ih]
  exact hslices h.vecs

lemma World.Represents.exists_items (h : world.Represents N plain) {vec : SmallVec T}
    (hmem : vec ∈ world.vecs) : ∃ items, vec.Represents N items := by
  rcases List.getElem?_of_mem hmem with ⟨index, hindex⟩
  have hvec := forall₂_getElem? h.vecs index
  rcases hplain : plain.vecs[index]? with _ | items <;> rw [hindex, hplain] at hvec <;> cases hvec
  next hrep => exact ⟨items, hrep⟩

lemma Represents.inline_le {array : ArrayVec T} {items : List T}
    (h : Represents N ⟨.inline array⟩ items) : array.len ≤ N := by
  cases h with
  | inline h => exact h.room

/-- The source's vectors do what plain lists do, whether the elements are inline or on the heap. -/
theorem smallVec_equivalent (hN : N ≤ usizeMax) {actions : List (Action T σ)}
    {state : Option (World T σ (SmallVec T))}
    (h : (runs (smallImpl T σ N)).Run (some World.start) actions state) :
    ∃ world plain, state = some world ∧
      (runs (listImpl T σ)).Run (some World.start) actions (some plain) ∧
      world.log = plain.log ∧ world.vecs.map (asSlice N) = plain.vecs.map some ∧
      (∀ array, ⟨.inline array⟩ ∈ world.vecs → array.len ≤ N) ∧
      ∀ vec ∈ world.vecs, vec.OnHeap →
        ∀ op result, smallApply (σ := σ) N vec op = some result → result.2.OnHeap := by
  have hstart : StateRepresents N (some World.start : Option (World T σ (SmallVec T)))
      (some World.start) := ⟨_, _, rfl, rfl, .nil, rfl⟩
  have hnext : ∀ state plain action, StateRepresents N state plain →
      Option.Rel (StateRepresents N)
        (state.bind fun world => world.next (smallImpl T σ N) action)
        (plain.bind fun lists => lists.next (listImpl T σ) action) := by
    rintro _ _ action ⟨world, lists, rfl, rfl, hrep⟩
    exact hrep.next hN action
  rcases h.lockstep (StateRepresents N) hnext hstart with
    ⟨_, hlists, world, plain, rfl, rfl, hrep⟩
  refine ⟨world, plain, rfl, hlists, hrep.log, hrep.asSlice, fun array hmem => ?_,
    fun vec hmem hheap op result hresult => ?_⟩
  · rcases hrep.exists_items hmem with ⟨items, harray⟩
    exact harray.inline_le
  · rcases hrep.exists_items hmem with ⟨items, hvec⟩
    rcases hvec.apply hN op with ⟨after, happly, hafter⟩
    cases happly.symm.trans hresult
    exact hafter.onHeap hheap

/-- Two elements inline, a third one that moves them to the heap, and a drain from both ends; a
clone, a vector of equal elements, and a range that is out of bounds. -/
theorem smallVec_equivalent_spilled :
    let differ : ℕ → ℕ → Bool := fun value last => value % 10 != last % 10
    let actions : List (Action ℕ Unit) := [.make (.iter 1 [4, 14]), .apply 0 (.push 5),
      .apply 0 (.dedup differ), .clone 0 (· + 1), .apply 0 (.drain ⟨.included 1, .included 2⟩ []),
      .apply 0 (.extend 0 [7, 8, 9]), .apply 0 (.drain ⟨.unbounded, .excluded 4⟩ [.back, .front]),
      .apply 0 (.remove 1), .make (.vec 2 [1, 11]),
      .apply 0 (.retain (fun state value => (value != 1, value + 1, state)) ()),
      .intoIter 0 [.back, .front, .front]]
    ∃ state world plain, (runs (smallImpl ℕ Unit 2)).Run (some World.start) actions state ∧
      state = some world ∧
      (runs (listImpl ℕ Unit)).Run (some World.start) actions (some plain) ∧
      world.log = plain.log ∧ world.vecs.map (asSlice 2) = plain.vecs.map some ∧
      (∀ array, ⟨.inline array⟩ ∈ world.vecs → array.len ≤ 2) ∧
      ∀ vec ∈ world.vecs, vec.OnHeap →
        ∀ op result, smallApply (σ := Unit) 2 vec op = some result → result.2.OnHeap := by
  intro differ actions
  have hrun : (runs (smallImpl ℕ Unit 2)).Run (some World.start) actions _ := System.run_replay rfl
  rcases smallVec_equivalent (Nat.le_of_ble_eq_true rfl) hrun with ⟨world, plain, hworld, hrest⟩
  exact ⟨_, world, plain, hrun, hworld, hrest⟩

end DoomFishUtils.SmallVec
