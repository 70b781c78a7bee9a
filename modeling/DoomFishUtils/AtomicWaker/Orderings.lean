import DoomFishUtils.AtomicWaker.Exclusion
import DoomFishUtils.Library.Views

/-!
# The orderings of the atomic waker

The accesses to the word with the orderings of the source.  All that change the word replace its latest
value, and a compare-exchange that fails may have found any older one.  So the cell is plain memory
without a race, and a thread whose waker waits in the cell knows all that has been done before the
calls of `wake` and `take` so far.
-/

namespace DoomFishUtils.AtomicWaker.Concurrent

set_option autoImplicit false

open Library

variable {ι W : Type}

/-- Plain memory. -/
inductive Cell (ι : Type) where
  | waker
  /-- What a thread writes before it calls `wake` or `take`. -/
  | before (thread : ι)
  deriving DecidableEq

/-- The latest word and the cell as the threads of a `World` have them, and the word's modification
order with what threads know. -/
structure WeakWorld (ι W : Type) where
  world : World ι W
  memory : Library.Memory ι Unit (Cell ι) ℕ

/-- The thread has still to set the bit of its `wake` or `take`. -/
def Pc.atFetchOr : Pc W → Bool
  | .fetchOr _ => true
  | _ => false

lemma Pc.inside_of_atFetchOr {pc : Pc W} (h : pc.atFetchOr = true) : pc.inside = false := by
  cases pc <;> first | rfl | cases h

/-- The word that a compare-exchange replaces. -/
def Pc.expected : Pc W → Option ℕ
  | .compareWaiting _ => some waiting
  | .compareRegistering _ => some registering
  | _ => none

/-- What an access does to the memory; a compare-exchange succeeds. -/
def Pc.synchronize [DecidableEq ι] (t : ι) (state : ℕ) (m : Library.Memory ι Unit (Cell ι) ℕ) :
    Pc W → Library.Memory ι Unit (Cell ι) ℕ
  | .compareWaiting _ => m.exchange t () true false registering
  | .compareRegistering _ | .reset _ _ => m.exchange t () true true waiting
  | .fetchOr _ => m.exchange t () true true (state ||| waking)
  | .unlock _ _ => m.exchange t () false true waiting
  | .update _ | .retake _ | .remove _ => m.access t .waker
  | .wakeTaken _ _ | .wakeByRef _ | .deliver _ _ | .idle | .fault => m

inductive WeakAction (ι W : Type) where
  | call (thread : ι) (call : Call W)
  | step (thread : ι)
  /-- A compare-exchange fails on the word at an index of the modification order. -/
  | fail (thread : ι) (index : ℕ)

namespace WeakWorld

variable [DecidableEq ι]

def start : WeakWorld ι W where
  world := .start
  memory :=
    { order := fun _ => [⟨waiting, (fun _ => 0, fun _ => 0)⟩]
      accesses := fun _ => 0
      views := fun _ => (fun _ => 0, fun _ => 0) }

/-- A compare-exchange that finds another word than the expected one, which the thread has not seen
overwritten. -/
def fail [TaskWaker W] (s : WeakWorld ι W) (t : ι) (index : ℕ) : Option (WeakWorld ι W) :=
  (s.world.pc t).expected.bind fun expected =>
    (s.memory.order ())[index]?.bind fun message =>
      if (s.memory.views t).1 () ≤ index ∧ message.value ≠ expected then
        ((s.world.pc t).next { s.world.memory with state := message.value }).map fun result =>
          ⟨s.world.stepped t { result with memory := s.world.memory },
            s.memory.acquire t () index⟩
      else none

def next [TaskWaker W] (s : WeakWorld ι W) : WeakAction ι W → Option (WeakWorld ι W)
  | .call t (.register waker) =>
    (s.world.next (.call t (.register waker))).map fun world => ⟨world, s.memory⟩
  | .call t (.taking taker) =>
    (s.world.next (.call t (.taking taker))).map fun world =>
      ⟨world, s.memory.access t (.before t)⟩
  | .step t =>
    if ∀ expected ∈ (s.world.pc t).expected, s.world.memory.state = expected then
      (s.world.next (.step t)).map fun world =>
        ⟨world, (s.world.pc t).synchronize t s.world.memory.state s.memory⟩
    else none
  | .fail t index => s.fail t index

end WeakWorld

/-- The runs of threads that share one atomic waker, with the orderings of the source. -/
def weakWakerSystem (ι W : Type) [DecidableEq ι] [TaskWaker W] :
    System (WeakWorld ι W) (WeakAction ι W) :=
  .ofNext WeakWorld.start WeakWorld.next

/-- No access to the cell races with an earlier one, and who waits knows what has been done before each
`wake` and `take` that has got to the word. -/
structure WeakWorld.Ordered [TaskWaker W] (s : WeakWorld ι W) : Prop where
  race_free : ∀ t, (s.world.pc t).inside = true → ¬s.memory.Races t .waker
  informed : s.world.memory.state = waiting → ∀ stored, s.world.memory.waker = some stored →
    ∃ t waker, (t, .registered waker) ∈ s.world.log ∧ willWake stored waker = true ∧
      ∀ u, (s.world.pc u).atFetchOr = false → ¬s.memory.Races t (.before u)

/-! ### The invariant -/

/-- The waker that the thread is about to leave in the cell. -/
def Pc.registers : Pc W → Option W
  | .update waker | .compareRegistering waker => some waker
  | _ => none

structure WeakInv [TaskWaker W] (s : WeakWorld ι W) : Prop where
  guards : Guards s.world.memory s.world.pc
  words : ∀ message ∈ s.memory.order (),
    ({ s.world.memory with state := message.value } : Memory W).IsWord
  latest : (s.memory.order ()).getLast?.map Message.value = some s.world.memory.state
  owned : ∀ t, (s.world.pc t).inside = true → s.memory.Knows t .waker
  handed : (∀ t, (s.world.pc t).inside = false) → s.memory.Hands () .waker
  own : ∀ t, s.memory.Knows t (.before t)
  told : ∀ t, (s.world.pc t).atFetchOr = false → s.memory.Hands () (.before t)
  /-- Who registers can find its own word only, and the latest one. -/
  seen : ∀ t, (s.world.pc t).inRegister = true → ∀ index message,
    (s.memory.views t).1 () ≤ index → (s.memory.order ())[index]? = some message →
      message.value = registering ∨ message.value = s.world.memory.state
  logged : ∀ t waker, (s.world.pc t).registers = some waker →
    (t, .registered waker) ∈ s.world.log
  waits : s.world.memory.state = waiting → ∀ stored, s.world.memory.waker = some stored →
    ∃ t waker, (t, .registered waker) ∈ s.world.log ∧ willWake stored waker = true ∧
      s.memory.Current t ()

section Facts

variable [TaskWaker W] {s : WeakWorld ι W}

lemma WeakInv.exists_latest (h : WeakInv s) :
    ∃ message, (s.memory.order ()).getLast? = some message ∧
      message.value = s.world.memory.state :=
  Option.map_eq_some_iff.mp h.latest

lemma WeakInv.ordered (h : WeakInv s) : s.Ordered where
  race_free t ht := (h.owned t ht).not_races
  informed hstate stored hstored := by
    obtain ⟨t, waker, hlog, hwill, hcurrent⟩ := h.waits hstate stored hstored
    exact ⟨t, waker, hlog, hwill, fun u hu => ((h.told u hu).knows hcurrent).not_races⟩

end Facts

section Stepped

variable [DecidableEq ι] (world : World ι W) (result : Stepped W) {t u : ι}

lemma World.stepped_pc : (world.stepped t result).pc t = result.pc :=
  Function.update_self ..

lemma World.stepped_pc_of_ne (hu : u ≠ t) : (world.stepped t result).pc u = world.pc u :=
  Function.update_of_ne hu ..

lemma World.mem_stepped (t : ι) {entry : ι × Note W} (h : entry ∈ world.log) :
    entry ∈ (world.stepped t result).log :=
  List.mem_append_right _ h

end Stepped

section Steps

variable [TaskWaker W] [DecidableEq ι] {s s' : WeakWorld ι W} {t : ι} {result : Stepped W}

/-- A step that leaves the word alone. -/
lemma WeakInv.frame (h : WeakInv s) {memory : Library.Memory ι Unit (Cell ι) ℕ}
    (hguards : Guards result.memory (s.world.stepped t result).pc)
    (hext : s.memory.Extends memory) (horder : memory.order = s.memory.order)
    (hstate : result.memory.state = s.world.memory.state)
    (hinside : result.pc.inside = (s.world.pc t).inside)
    (hregister : result.pc.inRegister = (s.world.pc t).inRegister)
    (hwaker : memory.accesses .waker = s.memory.accesses .waker ∨
      (s.world.pc t).inside = true ∧ memory.Knows t .waker)
    (hcell : (s.world.pc t).inside = false → result.memory.waker = s.world.memory.waker)
    (hbefore : ∀ u, memory.accesses (.before u) = s.memory.accesses (.before u) ∨
      u = t ∧ result.pc.atFetchOr = true ∧ memory.Knows t (.before t))
    (hfetchOr : (s.world.pc t).atFetchOr = true → result.pc.atFetchOr = true)
    (hlogged : ∀ waker, result.pc.registers = some waker →
      (s.world.pc t).registers = some waker) :
    WeakInv ⟨s.world.stepped t result, memory⟩ := by
  have hself : (s.world.stepped t result).pc t = result.pc := s.world.stepped_pc result
  have hothers : ∀ u, u ≠ t → (s.world.stepped t result).pc u = s.world.pc u :=
    fun u => s.world.stepped_pc_of_ne result
  have hin : ∀ u, ((s.world.stepped t result).pc u).inside = (s.world.pc u).inside := by
    intro u
    by_cases hu : u = t
    · rw [hu, hself, hinside]
    · rw [hothers u hu]
  have hinRegister : ∀ u,
      ((s.world.stepped t result).pc u).inRegister = (s.world.pc u).inRegister := by
    intro u
    by_cases hu : u = t
    · rw [hu, hself, hregister]
    · rw [hothers u hu]
  refine
    { guards := hguards
      words := ?_
      latest := ?_
      owned := fun u hu => ?_
      handed := fun hnone => ?_
      own := fun u => ?_
      told := fun u hu => ?_
      seen := fun u hu index message hview hmessage => ?_
      logged := fun u waker hu => ?_
      waits := fun hwaiting stored hstored => ?_ }
  · rw [horder]
    exact h.words
  · exact (congrArg (fun order => (order ()).getLast?.map Message.value) horder).trans
      (h.latest.trans (congrArg some hstate.symm))
  · have hu := (hin u).symm.trans hu
    rcases hwaker with hwaker | ⟨ht, hknows⟩
    · exact (h.owned u hu).extend hext hwaker
    · rw [h.guards.alone u t hu ht]
      exact hknows
  · have hnone : ∀ u, (s.world.pc u).inside = false := fun u => (hin u).symm.trans (hnone u)
    refine (h.handed hnone).congr (by rw [horder]) (hwaker.resolve_right fun ⟨ht, _⟩ => ?_)
    rw [hnone t] at ht
    cases ht
  · rcases hbefore u with hbefore | ⟨rfl, -, hknows⟩
    · exact (h.own u).extend hext hbefore
    · exact hknows
  · by_cases heq : u = t
    · subst heq
      rw [hself] at hu
      have hout : (s.world.pc u).atFetchOr = false :=
        Bool.eq_false_iff.mpr fun hpc => Bool.eq_false_iff.mp hu (hfetchOr hpc)
      have hsame := (hbefore u).resolve_right fun ⟨_, hafter, _⟩ =>
        Bool.eq_false_iff.mp hu hafter
      exact (h.told u hout).congr (by rw [horder]) hsame
    · rw [hothers u heq] at hu
      exact (h.told u hu).congr (by rw [horder])
        ((hbefore u).resolve_right fun ⟨hut, _⟩ => heq hut)
  · dsimp only at hview hmessage
    rw [horder] at hmessage
    have hseen := h.seen u ((hinRegister u).symm.trans hu) index message
      (((hext.views u).1 ()).trans hview) hmessage
    exact hseen.imp_right fun heq => heq.trans hstate.symm
  · refine s.world.mem_stepped result t ?_
    by_cases heq : u = t
    · subst heq
      rw [hself] at hu
      exact h.logged u waker (hlogged waker hu)
    · rw [hothers u heq] at hu
      exact h.logged u waker hu
  · have hwaiting : s.world.memory.state = waiting := hstate.symm.trans hwaiting
    have hstored : s.world.memory.waker = some stored :=
      (hcell (h.guards.outside_of_waiting hwaiting t)).symm.trans hstored
    obtain ⟨u, waker, hlog, hwill, hcurrent⟩ := h.waits hwaiting stored hstored
    exact ⟨u, waker, s.world.mem_stepped result t hlog, hwill,
      hcurrent.extend hext (by rw [horder])⟩

/-- A step that replaces the word. -/
lemma WeakInv.exchange (h : WeakInv s) {acquires releases : Bool}
    (hguards : Guards result.memory (s.world.stepped t result).pc)
    (henters : result.pc.inside = true → acquires = true ∧ s.world.memory.state = waiting)
    (hleaves : (s.world.pc t).inside = true → releases = true)
    (hfetchOr : (s.world.pc t).atFetchOr = true → releases = true)
    (hothers : ∀ u, u ≠ t → (s.world.pc u).inRegister = true →
      s.world.memory.state = registering ∨ s.world.memory.state = result.memory.state)
    (hlogged : ∀ waker, result.pc.registers = some waker → .registered waker ∈ result.notes)
    (hwaits : result.memory.state = waiting → ∀ stored, result.memory.waker = some stored →
      acquires = true ∧ ∃ waker, (s.world.pc t).registers = some waker ∧
        willWake stored waker = true) :
    WeakInv ⟨s.world.stepped t result,
      s.memory.exchange t () acquires releases result.memory.state⟩ := by
  obtain ⟨last, hlast, hvalue⟩ := h.exists_latest
  obtain ⟨view, horder, -, -, -, hlength⟩ :=
    Library.Memory.exchange_order t () acquires releases result.memory.state hlast
  have hext := s.memory.extends_exchange t () acquires releases result.memory.state
  have haccesses := s.memory.exchange_accesses t () acquires releases result.memory.state
  have hself : (s.world.stepped t result).pc t = result.pc := s.world.stepped_pc result
  have hpc : ∀ u, u ≠ t → (s.world.stepped t result).pc u = s.world.pc u :=
    fun u => s.world.stepped_pc_of_ne result
  refine
    { guards := hguards
      words := fun message hmessage => ?_
      latest := ?_
      owned := fun u hu => ?_
      handed := fun hnone => ?_
      own := fun u => (h.own u).extend hext (by rw [haccesses])
      told := fun u hu => ?_
      seen := fun u hu index message hview hmessage => ?_
      logged := fun u waker hu => ?_
      waits := fun hwaiting stored hstored => ?_ }
  · rw [horder] at hmessage
    rcases List.mem_append.mp hmessage with hold | hnew
    · exact h.words message hold
    · obtain rfl := List.mem_singleton.mp hnew
      exact hguards.isWord
  · rw [horder, List.getLast?_concat]
    rfl
  · by_cases heq : u = t
    · subst heq
      rw [hself] at hu
      obtain ⟨rfl, hstate⟩ := henters hu
      exact ((h.handed (h.guards.outside_of_waiting hstate)).exchange ..).knows
        (Library.Memory.current_exchange _ _ _ hlast)
    · rw [hpc u heq] at hu
      exact (h.owned u hu).extend hext (by rw [haccesses])
  · by_cases ht : (s.world.pc t).inside = true
    · rw [hleaves ht]
      exact (h.owned t ht).hands_exchange _ _ _ hlast
    · refine (h.handed fun u => ?_).exchange ..
      by_cases heq : u = t
      · rw [heq]
        exact Bool.not_eq_true _ ▸ ht
      · rw [← hpc u heq]
        exact hnone u
  · by_cases hbefore : (s.world.pc u).atFetchOr = true
    · have heq : u = t := by
        by_contra hne
        rw [hpc u hne, hbefore] at hu
        cases hu
      subst heq
      rw [hfetchOr hbefore]
      exact (h.own u).hands_exchange _ _ _ hlast
    · exact (h.told u (Bool.eq_false_iff.mpr hbefore)).exchange ..
  · rw [horder] at hmessage
    by_cases hlt : index < (s.memory.order ()).length
    · have hne : u ≠ t := by
        rintro rfl
        exact absurd (hlength.trans hview) (Nat.not_le.mpr hlt)
      rw [List.getElem?_append_left hlt] at hmessage
      rw [hpc u hne] at hu
      dsimp only at hview
      rw [s.memory.exchange_views_of_ne _ _ _ _ _ hne] at hview
      rcases h.seen u hu index message hview hmessage with heq | heq
      · exact .inl heq
      · exact (hothers u hne hu).imp heq.trans heq.trans
    · rw [List.getElem?_append_right (Nat.not_lt.mp hlt)] at hmessage
      obtain rfl := List.mem_singleton.mp (List.mem_of_getElem? hmessage)
      exact .inr rfl
  · by_cases heq : u = t
    · subst heq
      rw [hself] at hu
      exact List.mem_append_left _ (List.mem_map_of_mem (hlogged waker hu))
    · rw [hpc u heq] at hu
      exact s.world.mem_stepped result t (h.logged u waker hu)
  · obtain ⟨rfl, waker, hregisters, hwill⟩ := hwaits hwaiting stored hstored
    exact ⟨t, waker, s.world.mem_stepped result t (h.logged t waker hregisters), hwill,
      Library.Memory.current_exchange _ _ _ hlast⟩

/-- A thread accesses the cell that it holds. -/
lemma WeakInv.access (h : WeakInv s) (hguards : Guards result.memory (s.world.stepped t result).pc)
    (hstate : result.memory.state = s.world.memory.state)
    (hin : (s.world.pc t).inside = true)
    (hinside : result.pc.inside = (s.world.pc t).inside)
    (hregister : result.pc.inRegister = (s.world.pc t).inRegister)
    (hlogged : ∀ waker, result.pc.registers = some waker →
      (s.world.pc t).registers = some waker) :
    WeakInv ⟨s.world.stepped t result, s.memory.access t .waker⟩ := by
  refine h.frame hguards (s.memory.extends_access t .waker) rfl hstate hinside hregister
    (.inr ⟨hin, s.memory.knows_access t .waker⟩) (fun hout => ?_) (fun u => .inl ?_)
    (fun hpc => ?_) hlogged
  · rw [hin] at hout
    cases hout
  · refine s.memory.access_accesses_of_ne t ?_
    intro heq
    cases heq
  · rw [Pc.inside_of_atFetchOr hpc] at hin
    cases hin

/-- A step outside that leaves the memory alone. -/
lemma WeakInv.quiet (h : WeakInv s) {memory : Library.Memory ι Unit (Cell ι) ℕ}
    (hguards : Guards result.memory (s.world.stepped t result).pc)
    (hmemory : result.memory = s.world.memory) (hext : s.memory.Extends memory)
    (horder : memory.order = s.memory.order) (haccesses : memory.accesses = s.memory.accesses)
    (hinside : result.pc.inside = (s.world.pc t).inside)
    (hregister : result.pc.inRegister = (s.world.pc t).inRegister)
    (hfetchOr : (s.world.pc t).atFetchOr = false)
    (hlogged : ∀ waker, result.pc.registers = some waker →
      (s.world.pc t).registers = some waker) :
    WeakInv ⟨s.world.stepped t result, memory⟩ :=
  h.frame hguards hext horder (by rw [hmemory]) hinside hregister (.inl (by rw [haccesses]))
    (fun _ => by rw [hmemory]) (fun _ => .inl (by rw [haccesses]))
    (fun hpc => absurd hpc (Bool.eq_false_iff.mp hfetchOr)) hlogged

/-- An access other than a compare-exchange that fails. -/
lemma WeakInv.step (h : WeakInv s)
    (hexpected : ∀ expected ∈ (s.world.pc t).expected, s.world.memory.state = expected)
    (hnext : (s.world.pc t).next s.world.memory = some result) :
    WeakInv ⟨s.world.stepped t result,
      (s.world.pc t).synchronize t s.world.memory.state s.memory⟩ := by
  have hguards : Guards result.memory (s.world.stepped t result).pc := h.guards.next hnext
  have hfits := h.guards.fits t
  have halone : (s.world.pc t).inside = true → ∀ u, u ≠ t → (s.world.pc u).inRegister ≠ true := by
    intro hin u hu hregister
    refine hu (h.guards.alone u t ?_ hin)
    rw [Pc.inside, hregister]
    rfl
  cases hpc : s.world.pc t <;> rw [hpc] at hexpected hnext hfits halone <;> cases hnext
  case compareWaiting waker =>
    have hstate := hexpected waiting rfl
    have hresult : compareWaiting s.world.memory waker =
        ⟨{ s.world.memory with state := registering }, .update waker, [.registered waker]⟩ := by
      rw [compareWaiting, if_pos hstate]
    rw [hresult] at hguards ⊢
    refine h.exchange hguards (fun _ => ⟨rfl, hstate⟩) ?_ ?_ (fun u _ hregister => ?_) ?_ ?_
    · rw [hpc]
      intro hin
      cases hin
    · rw [hpc]
      intro heq
      cases heq
    · exact absurd hstate ((h.guards.fits u).not_waiting (by rw [Pc.inside, hregister]; rfl))
    · intro other heq
      cases heq
      exact List.mem_singleton_self _
    · intro heq
      cases heq
  case update waker =>
    obtain ⟨hstate, hafter⟩ : (update s.world.memory waker).memory.state = s.world.memory.state ∧
        (update s.world.memory waker).pc = .compareRegistering waker := by
      unfold update
      split
      · split_ifs <;> exact ⟨rfl, rfl⟩
      · exact ⟨rfl, rfl⟩
    exact h.access hguards hstate (by rw [hpc]; rfl) (by rw [hafter, hpc]; rfl)
      (by rw [hafter, hpc]; rfl) (by rw [hafter, hpc]; exact fun _ => id)
  case compareRegistering waker =>
    have hstate := hexpected registering rfl
    have hresult : compareRegistering s.world.memory waker =
        ⟨{ s.world.memory with state := waiting }, .idle, [.returned]⟩ := by
      rw [compareRegistering, if_pos hstate]
    rw [hresult] at hguards ⊢
    refine h.exchange hguards ?_ (fun _ => rfl) (fun _ => rfl)
      (fun u hu hregister => absurd hregister (halone rfl u hu)) ?_ fun _ stored hstored => ?_
    · intro hin
      cases hin
    · intro other heq
      cases heq
    · obtain ⟨stored', hstored', hwill⟩ := hfits.2
      obtain rfl : stored' = stored := Option.some.inj (hstored'.symm.trans hstored)
      exact ⟨rfl, waker, by rw [hpc]; rfl, hwill⟩
  case retake waker =>
    obtain ⟨stored, hstored, -⟩ := hfits.2
    have hresult : retake s.world.memory waker =
        ⟨{ s.world.memory with waker := none }, .reset waker stored, [.taken stored]⟩ := by
      rw [retake, hstored]
    rw [hresult] at hguards ⊢
    refine h.access hguards rfl (by rw [hpc]; rfl) (by rw [hpc]; rfl) (by rw [hpc]; rfl) ?_
    intro other heq
    cases heq
  case reset waker taken =>
    refine h.exchange hguards ?_ (fun _ => rfl) (fun _ => rfl)
      (fun u hu hregister => absurd hregister (halone rfl u hu)) ?_ fun _ stored hstored => ?_
    · intro hin
      cases hin
    · intro other heq
      cases heq
    · cases hfits.2.1.symm.trans hstored
  case fetchOr taker =>
    have hresult : (fetchOr s.world.memory taker).memory.state =
        s.world.memory.state ||| waking := by
      unfold fetchOr
      split_ifs <;> rfl
    unfold Pc.synchronize
    rw [← hresult]
    refine h.exchange hguards (fun hin => ⟨rfl, ?_⟩) (fun _ => rfl) (fun _ => rfl)
      (fun u _ hregister => ?_) (fun other heq => ?_) fun hwaiting => ?_
    · by_contra hne
      rw [fetchOr_of_ne h.guards.isWord hne] at hin
      cases hin
    · rcases (h.guards.fits u).inRegister hregister with heq | heq
      · exact .inl heq
      · rw [hresult, heq]
        exact .inr rfl
    · unfold fetchOr at heq
      split_ifs at heq <;> cases heq
    · rw [hresult] at hwaiting
      rcases h.guards.isWord with heq | heq | heq | heq <;> rw [heq] at hwaiting <;> cases hwaiting
  case remove taker =>
    refine h.access hguards rfl (by rw [hpc]; rfl) (by rw [hpc]; rfl) (by rw [hpc]; rfl) ?_
    intro other heq
    cases heq
  case unlock taker taken =>
    have hresult : unlock s.world.memory taker taken =
        ⟨{ s.world.memory with state := waiting }, .deliver taker taken, []⟩ := by
      rw [unlock, if_pos hfits.1]
    rw [hresult] at hguards ⊢
    refine h.exchange hguards ?_ (fun _ => rfl) (fun _ => rfl)
      (fun u hu hregister => absurd hregister (halone rfl u hu)) ?_ fun _ stored hstored => ?_
    · intro hin
      cases hin
    · intro other heq
      cases heq
    · cases hfits.2.symm.trans hstored
  case wakeTaken | wakeByRef | deliver =>
    refine h.quiet hguards rfl (.refl _) rfl rfl (by rw [hpc]; rfl) (by rw [hpc]; rfl)
      (by rw [hpc]; rfl) ?_
    intro other heq
    cases heq

lemma WeakInv.fail (h : WeakInv s) {index : ℕ} (hnext : s.fail t index = some s') :
    WeakInv s' := by
  obtain ⟨expected, hexpected, hnext⟩ := Option.bind_eq_some_iff.mp hnext
  obtain ⟨message, hmessage, hnext⟩ := Option.bind_eq_some_iff.mp hnext
  rw [Option.ite_none_right_eq_some] at hnext
  obtain ⟨⟨hview, hne⟩, hnext⟩ := hnext
  obtain ⟨result, hresult, rfl⟩ := Option.map_eq_some_iff.mp hnext
  have hext := s.memory.extends_acquire t () index
  have horder := s.memory.acquire_order t () index
  have haccesses := s.memory.acquire_accesses t () index
  have hfits := h.guards.fits t
  cases hpc : s.world.pc t <;> rw [hpc] at hexpected hresult hfits <;> cases hexpected
  case compareWaiting waker =>
    cases hresult
    have hword := (h.words message (List.mem_of_getElem? hmessage)).resolve_left hne
    have houtside : (s.world.pc t).inside = false := by rw [hpc]; rfl
    -- a wake that holds the cell is met, or another registration
    have hafter : (compareWaiting { s.world.memory with state := message.value } waker).pc =
        .wakeByRef waker ∨
        (compareWaiting { s.world.memory with state := message.value } waker).pc = .idle := by
      unfold compareWaiting
      rw [if_neg hne]
      split_ifs with hwaking hregistering
      · exact .inl rfl
      · exact .inr rfl
      · exact absurd (hword.elim .inl fun hword => hword.elim .inr fun heq => absurd heq hwaking)
          hregistering
    generalize compareWaiting { s.world.memory with state := message.value } waker = result at hafter
    rcases result with ⟨memory, pc, notes⟩
    have hguards : Guards s.world.memory (Function.update s.world.pc t pc) := by
      refine Guards.of_outside ?_ ?_ (fun u _ => h.guards.fits u) h.guards.alone
        (h.guards.free_of_outside houtside) <;>
        rcases hafter with rfl | rfl <;> trivial
    refine h.quiet hguards rfl hext horder haccesses ?_ ?_ ?_ ?_ <;> rw [hpc]
    · rcases hafter with rfl | rfl <;> rfl
    · rcases hafter with rfl | rfl <;> rfl
    · rfl
    · intro other heq
      rcases hafter with rfl | rfl <;> cases heq
  case compareRegistering waker =>
    cases hresult
    have hstate : message.value = s.world.memory.state :=
      (h.seen t (by rw [hpc]; rfl) index message hview hmessage).resolve_left hne
    rw [hstate] at hne ⊢
    have hresult : compareRegistering s.world.memory waker = ⟨s.world.memory, .retake waker, []⟩ := by
      rw [compareRegistering, if_neg hne, if_pos (hfits.1.resolve_left hne)]
    have hnext : (s.world.pc t).next s.world.memory = some ⟨s.world.memory, .retake waker, []⟩ := by
      rw [hpc, Pc.next, hresult]
    have hsame : compareRegistering { s.world.memory with state := s.world.memory.state } waker =
        ⟨s.world.memory, .retake waker, []⟩ := hresult
    rw [hsame]
    refine h.quiet (h.guards.next hnext) rfl hext horder haccesses (by rw [hpc]; rfl)
      (by rw [hpc]; rfl) (by rw [hpc]; rfl) ?_
    intro other heq
    cases heq

lemma WeakInv.next (h : WeakInv s) {action : WeakAction ι W} (hnext : s.next action = some s') :
    WeakInv s' := by
  cases action with
  | call t call =>
    cases call with
    | register waker =>
      obtain ⟨world, hworld, rfl⟩ := Option.map_eq_some_iff.mp hnext
      obtain ⟨u, call, heq, hidle, rfl⟩ | ⟨u, result, heq, -⟩ := World.next_cases hworld
      · cases heq
        refine h.quiet (h.guards.call hidle (.register waker)) rfl (.refl _) rfl rfl (by rw [hidle]; rfl)
          (by rw [hidle]; rfl) (by rw [hidle]; rfl) ?_
        intro other heq
        cases heq
      · cases heq
    | taking taker =>
      obtain ⟨world, hworld, rfl⟩ := Option.map_eq_some_iff.mp hnext
      obtain ⟨u, call, heq, hidle, rfl⟩ | ⟨u, result, heq, -⟩ := World.next_cases hworld
      · cases heq
        refine h.frame (h.guards.call hidle (.taking taker))
          (s.memory.extends_access t (.before t)) rfl rfl (by rw [hidle]; rfl) (by rw [hidle]; rfl)
          (.inl ?_) (fun _ => rfl) (fun u => ?_) (fun _ => rfl) ?_
        · refine s.memory.access_accesses_of_ne t ?_
          intro heq
          cases heq
        · by_cases hu : u = t
          · exact .inr ⟨hu, rfl, s.memory.knows_access t _⟩
          · refine .inl (s.memory.access_accesses_of_ne t ?_)
            intro heq
            cases heq
            exact hu rfl
        · intro other heq
          cases heq
      · cases heq
  | step t =>
    rw [WeakWorld.next, Option.ite_none_right_eq_some] at hnext
    obtain ⟨hexpected, hnext⟩ := hnext
    obtain ⟨world, hworld, rfl⟩ := Option.map_eq_some_iff.mp hnext
    obtain ⟨u, call, heq, -⟩ | ⟨u, result, heq, hresult, rfl⟩ := World.next_cases hworld
    · cases heq
    · cases heq
      exact h.step hexpected hresult
  | fail t index => exact h.fail hnext

end Steps

lemma weakInv_start [TaskWaker W] [DecidableEq ι] : WeakInv (WeakWorld.start : WeakWorld ι W) where
  guards := guards_start
  words message hmessage := by
    obtain rfl := List.mem_singleton.mp hmessage
    exact .inl rfl
  latest := rfl
  owned t ht := by cases ht
  handed _ := ⟨_, rfl, le_rfl⟩
  own t := le_rfl
  told t _ := ⟨_, rfl, le_rfl⟩
  seen t ht := by cases ht
  logged t waker ht := by cases ht
  waits _ stored hstored := by cases hstored

/-- With the orderings of the source and compare-exchanges that may fail on words that have been
replaced, only one thread at a time holds the cell and no access to it races with another.  Whenever a
waker waits in the cell, a thread that has registered for its task knows all that has been done before
the calls of `wake` and `take` that have got to the word, so that a check after its registration misses
none of them. -/
theorem atomicWaker_race_free [TaskWaker W] [DecidableEq ι] {s : WeakWorld ι W}
    (h : (weakWakerSystem ι W).Reachable s) : Exclusive s.world ∧ s.Ordered := by
  have hinv : WeakInv s := by
    refine h.invariant (P := WeakInv) ?_ fun _ _ _ h hnext => h.next hnext
    rintro s rfl
    exact weakInv_start
  exact ⟨hinv.guards.exclusive, hinv.ordered⟩

/-- A registration that finds the word of a wake that is over and wakes its own task, and one that
succeeds. -/
theorem atomicWaker_race_free_stale :
    let s := (System.replay WeakWorld.next (WeakWorld.start : WeakWorld ℕ RawWaker)
      ([.call 1 (.taking .wake)] ++ .replicate 4 (.step 1) ++
        [.call 0 (.register ⟨1, 1⟩), .fail 0 1, .step 0, .call 0 (.register ⟨1, 1⟩)] ++
        .replicate 3 (.step 0))).get rfl
    Exclusive s.world ∧ s.Ordered :=
  atomicWaker_race_free (System.reachable_replay rfl)

end DoomFishUtils.AtomicWaker.Concurrent
