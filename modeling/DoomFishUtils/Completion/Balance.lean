import DoomFishUtils.Completion.Model
import DoomFishUtils.Library.History
import DoomFishUtils.Library.Ledger

/-!
# The balance of the references

One invariant about what the two completions share: the first swap wins, the count is the number
of references that are held, and the winner's result is on its way or has ended in one place.
-/

namespace DoomFishUtils.Completion

set_option autoImplicit false

open DoomFishUtils.Library

variable {R A : Type}

namespace Event

def isCall : Event R → Bool
  | .called _ _ => true
  | _ => false

/-- The result of the call that wins. -/
def won : Event R → List R
  | .called result true => [result]
  | _ => []

def storedResult : Event R → List R
  | .stored result => [result]
  | _ => []

/-- The result that an operation of the owner returns. -/
def returnedResult : Event R → List R
  | .returned answer => answer.toList
  | _ => []

/-- The result that an event returns or drops with the allocation. -/
def ended : Event R → List R
  | .returned answer => answer.toList
  | .freed result => result.toList
  | _ => []

/-- One mark for the release of this reference. -/
def releases (holder : Holder) : Event R → List Unit
  | .released other => if other = holder then [()] else []
  | _ => []

/-- One mark for the end of the allocation. -/
def frees : Event R → List Unit
  | .freed _ => [()]
  | _ => []

/-- A call wins if and only if no call came before. -/
def FirstWins : Event R → List (Event R) → Prop
  | .called _ won, earlier => won = true ↔ ∀ event ∈ earlier, event.isCall = false
  | _, _ => True

end Event

namespace Winner

/-- The call holds the reference that it took over. -/
def isRunning : Winner R A → Bool
  | .storing _ => true
  | .signalling _ => true
  | .releasing => true
  | _ => false

/-- The result that the call has yet to store. -/
def hand : Winner R A → List R
  | .storing result => [result]
  | _ => []

def isDone : Winner R A → Bool
  | .done => true
  | _ => false

end Winner

def marks (condition : Bool) : List Unit :=
  if condition then [()] else []

/-- The invariant, for an owner that holds its reference and has a result in hand or not. -/
structure Handover (shared : Shared R A) (holds : Bool) (hand : List R) : Prop where
  strong : shared.strong =
    holds.toNat + (!shared.consumed).toNat + shared.winner.isRunning.toNat
  fresh : shared.consumed = false → shared.winner = .absent ∧
    ∀ event ∈ shared.log, event.isCall = false
  called : shared.consumed = true → shared.winner ≠ .absent ∧
    ∃ event ∈ shared.log, event.isCall = true
  firstWins : Throughout Event.FirstWins shared.log
  won : total Event.won shared.log = [] ∧ shared.consumed = false ∨
    ∃ result, total Event.won shared.log = [result] ∧ shared.consumed = true
  balanced : Balanced Event.won Event.ended shared.log
    (hand ++ (shared.result.toList ++ shared.winner.hand))
  stored : total Event.storedResult shared.log ++ shared.winner.hand = total Event.won shared.log
  callback : total (Event.releases .callback) shared.log = marks shared.winner.isDone
  owner : total (Event.releases .owner) shared.log = marks (!holds)
  frees : total Event.frees shared.log = marks (decide (shared.strong = 0))
  freed : shared.strong = 0 → shared.result = none

section Steps

variable {shared : Shared R A} {holds : Bool} {hand : List R}

lemma handover_new : Handover (Shared.new : Shared R A) true [] where
  strong := rfl
  fresh _ := ⟨rfl, fun _ hmem => absurd hmem List.not_mem_nil⟩
  called h := by cases h
  firstWins := trivial
  won := .inl ⟨rfl, rfl⟩
  balanced := balanced_nil
  stored := rfl
  callback := rfl
  owner := rfl
  frees := rfl
  freed h := by cases h

/-- The winner's result is held at most once. -/
lemma Handover.held_length (h : Handover shared holds hand) :
    (hand ++ (shared.result.toList ++ shared.winner.hand)).length ≤ 1 := by
  have hbalanced := h.balanced.total_eq
  have hlength := congrArg List.length hbalanced
  rw [List.length_append] at hlength
  rcases h.won with ⟨hwon, -⟩ | ⟨result, hwon, -⟩ <;> rw [hwon] at hlength
  · simp only [List.length_nil] at hlength
    omega
  · simp only [List.length_singleton] at hlength
    omega

/-- A duplicate leaves everything but the history as it is. -/
lemma Handover.swap_consumed (h : Handover shared holds hand) (hconsumed : shared.consumed = true)
    (result : R) : Handover { shared with log := .called result false :: shared.log } holds hand := by
  rcases h.called hconsumed with ⟨hwinner, event, hmem, hcall⟩
  exact {
    strong := h.strong
    fresh := fun hnot => by cases hconsumed.symm.trans hnot
    called := fun _ => ⟨hwinner, event, List.mem_cons_of_mem _ hmem, hcall⟩
    firstWins := by
      refine ⟨⟨nofun, fun hnone => ?_⟩, h.firstWins⟩
      cases (hnone event hmem).symm.trans hcall
    won := by
      rw [total_cons_of_nil rfl]
      exact h.won
    balanced := h.balanced.cons_of_nil rfl rfl
    stored := by
      rw [total_cons_of_nil rfl, total_cons_of_nil rfl]
      exact h.stored
    callback := (total_cons_of_nil rfl).trans h.callback
    owner := (total_cons_of_nil rfl).trans h.owner
    frees := (total_cons_of_nil rfl).trans h.frees
    freed := h.freed }

/-- The first swap takes the reference of the context over. -/
lemma Handover.swap (h : Handover shared holds hand) (result : R) :
    Handover (shared.swap result) holds hand := by
  unfold Shared.swap
  split_ifs with hconsumed
  · exact h.swap_consumed hconsumed result
  · rw [Bool.not_eq_true] at hconsumed
    rcases h.fresh hconsumed with ⟨hwinner, hnone⟩
    have hwon : total Event.won shared.log = [] := by
      rcases h.won with ⟨hwon, -⟩ | ⟨other, -, hother⟩
      · exact hwon
      · cases hconsumed.symm.trans hother
    have hstrong := h.strong
    rw [hwinner, hconsumed] at hstrong
    exact {
      strong := hstrong
      fresh := nofun
      called := fun _ => ⟨nofun, _, List.mem_cons_self, rfl⟩
      firstWins := ⟨⟨fun _ => hnone, fun _ => rfl⟩, h.firstWins⟩
      won := .inr ⟨result, congrArg (· ++ [result]) hwon, rfl⟩
      balanced := h.balanced.cons (by
        rw [hwinner]
        change hand ++ (shared.result.toList ++ []) ++ [result] =
          [] ++ (hand ++ (shared.result.toList ++ [result]))
        simp only [List.append_nil, List.nil_append, List.append_assoc])
      stored := by
        have hstored := h.stored
        rw [hwinner, hwon] at hstored
        rw [total_cons_of_nil rfl, (List.append_eq_nil_iff.mp hstored).1]
        exact (congrArg (· ++ [result]) hwon).symm
      callback := by
        have hcallback := h.callback
        rw [hwinner] at hcallback
        exact (total_cons_of_nil rfl).trans hcallback
      owner := (total_cons_of_nil rfl).trans h.owner
      frees := (total_cons_of_nil rfl).trans h.frees
      freed := h.freed }

/-- The winner stores its result where none is. -/
lemma Handover.store (h : Handover shared holds hand) {result : R}
    (hwinner : shared.winner = .storing result) (signal : A) :
    Handover (shared.store result signal) holds hand := by
  have hconsumed : shared.consumed = true := by
    by_contra hnot
    rw [Bool.not_eq_true] at hnot
    cases hwinner.symm.trans (h.fresh hnot).1
  have hlength := h.held_length
  rw [hwinner] at hlength
  have hnone : shared.result = none := by
    rcases hresult : shared.result with _ | other
    · rfl
    · rw [hresult] at hlength
      simp [Winner.hand] at hlength
  have hstrong := h.strong
  rw [hwinner] at hstrong
  have hlive : shared.strong ≠ 0 := by
    rw [hstrong]
    exact Nat.succ_ne_zero _
  have hcallback := h.callback
  have hstored := h.stored
  have hbalanced := h.balanced
  rw [hwinner] at hcallback hstored
  rw [hwinner, hnone] at hbalanced
  rcases h.called hconsumed with ⟨-, event, hmem, hcall⟩
  exact {
    strong := hstrong
    fresh := fun hnot => by cases hconsumed.symm.trans hnot
    called := fun _ => ⟨nofun, event, List.mem_cons_of_mem _ hmem, hcall⟩
    firstWins := ⟨trivial, h.firstWins⟩
    won := by
      rw [Shared.store, total_cons_of_nil rfl]
      exact h.won
    balanced := hbalanced.cons_of_nil rfl rfl
    stored := (List.append_nil _).trans (hstored.trans (total_cons_of_nil rfl).symm)
    callback := (total_cons_of_nil rfl).trans hcallback
    owner := (total_cons_of_nil rfl).trans h.owner
    frees := (total_cons_of_nil rfl).trans h.frees
    freed := fun hzero => absurd hzero hlive }

/-- The winner has signalled. -/
lemma Handover.signalled (h : Handover shared holds hand) {signal : A}
    (hwinner : shared.winner = .signalling signal) :
    Handover ({ shared with winner := .releasing } : Shared R A) holds hand := by
  have hstrong := h.strong
  have hcallback := h.callback
  have hstored := h.stored
  have hbalanced := h.balanced
  rw [hwinner] at hstrong hcallback hstored hbalanced
  exact {
    strong := hstrong
    fresh := fun hnot => by cases hwinner.symm.trans (h.fresh hnot).1
    called := fun hconsumed => ⟨nofun, (h.called hconsumed).2⟩
    firstWins := h.firstWins
    won := h.won
    balanced := hbalanced
    stored := hstored
    callback := hcallback
    owner := h.owner
    frees := h.frees
    freed := h.freed }

/-- The owner takes the result, to return it later. -/
lemma Handover.take (h : Handover shared holds []) :
    Handover shared.take.2 holds shared.take.1.toList where
  strong := h.strong
  fresh := h.fresh
  called := h.called
  firstWins := h.firstWins
  won := h.won
  balanced := h.balanced
  stored := h.stored
  callback := h.callback
  owner := h.owner
  frees := h.frees
  freed _ := rfl

/-- The owner returns what it has in hand. -/
lemma Handover.returned {answer : Option R} (h : Handover shared holds answer.toList) :
    Handover (shared.returned answer) holds [] where
  strong := h.strong
  fresh hnot := ⟨(h.fresh hnot).1, List.forall_mem_cons.mpr ⟨rfl, (h.fresh hnot).2⟩⟩
  called hconsumed := by
    rcases h.called hconsumed with ⟨hwinner, event, hmem, hcall⟩
    exact ⟨hwinner, event, List.mem_cons_of_mem _ hmem, hcall⟩
  firstWins := ⟨trivial, h.firstWins⟩
  won := by
    rw [Shared.returned, total_cons_of_nil rfl]
    exact h.won
  balanced := h.balanced.cons (List.append_nil _)
  stored := by
    rw [Shared.returned, total_cons_of_nil rfl, total_cons_of_nil rfl]
    exact h.stored
  callback := (total_cons_of_nil rfl).trans h.callback
  owner := (total_cons_of_nil rfl).trans h.owner
  frees := (total_cons_of_nil rfl).trans h.frees
  freed := h.freed

/-! ### The drop of a reference -/

/-- The drop of one of the references that are held.  The last one drops the stored result. -/
lemma Handover.release (h : Handover shared holds hand) {holder : Holder} {holds' : Bool}
    {winner : Winner R A}
    (hstrong : holds'.toNat + winner.isRunning.toNat + 1 =
      holds.toNat + shared.winner.isRunning.toNat)
    (hhand : winner.hand = shared.winner.hand) (habsent : winner = .absent ↔ shared.winner = .absent)
    (hcallback : marks winner.isDone =
      marks shared.winner.isDone ++ Event.releases .callback (.released holder : Event R))
    (howner : marks (!holds') = marks (!holds) ++ Event.releases .owner (.released holder : Event R)) :
    Handover { shared.release holder with winner := winner } holds' hand := by
  have hcount : shared.strong = 1 + holds'.toNat + (!shared.consumed).toNat +
      winner.isRunning.toNat := by
    have := h.strong
    omega
  have hquiet : shared.consumed = false → winner = .absent ∧
      ∀ event ∈ .released holder :: shared.log, event.isCall = false := fun hnot =>
    ⟨habsent.mpr (h.fresh hnot).1, List.forall_mem_cons.mpr ⟨rfl, (h.fresh hnot).2⟩⟩
  have hcalled : shared.consumed = true → winner ≠ .absent ∧
      ∃ event ∈ .released holder :: shared.log, event.isCall = true := by
    intro hset
    rcases h.called hset with ⟨hwinner, event, hmem, hcall⟩
    exact ⟨fun heq => hwinner (habsent.mp heq), event, List.mem_cons_of_mem _ hmem, hcall⟩
  have hbalanced : Balanced Event.won Event.ended (.released holder :: shared.log)
      (hand ++ (shared.result.toList ++ winner.hand)) := by
    rw [hhand]
    exact h.balanced.cons_of_nil rfl rfl
  have hstored : total Event.storedResult (.released holder :: shared.log) ++ winner.hand =
      total Event.won (.released holder :: shared.log) := by
    rw [total_cons_of_nil rfl, total_cons_of_nil rfl, hhand]
    exact h.stored
  have hcallback' : total (Event.releases .callback) (.released holder :: shared.log) =
      marks winner.isDone := by
    rw [total, h.callback, hcallback]
  have howner' : total (Event.releases .owner) (.released holder :: shared.log) =
      marks (!holds') := by
    rw [total, h.owner, howner]
  have hfrees : total Event.frees (.released holder :: shared.log) = [] := by
    rw [total_cons_of_nil rfl, h.frees, hcount]
    simp [marks, Nat.add_assoc]
  unfold Shared.release
  split_ifs with hlast
  · exact {
      strong := by
        change 0 = holds'.toNat + (!shared.consumed).toNat + winner.isRunning.toNat
        omega
      fresh := fun hnot => ⟨(hquiet hnot).1, List.forall_mem_cons.mpr ⟨rfl, (hquiet hnot).2⟩⟩
      called := fun hset => ⟨(hcalled hset).1, by
        rcases (hcalled hset).2 with ⟨event, hmem, hcall⟩
        exact ⟨event, List.mem_cons_of_mem _ hmem, hcall⟩⟩
      firstWins := ⟨trivial, trivial, h.firstWins⟩
      won := by
        rw [total_cons_of_nil rfl, total_cons_of_nil rfl]
        exact h.won
      balanced := by
        refine hbalanced.cons ?_
        have hlength := h.held_length
        rw [← hhand] at hlength
        rcases hresult : shared.result with _ | result
        · exact List.append_nil _
        · -- Nothing else is held beside the result that is dropped.
          rw [hresult] at hlength
          simp only [Option.toList_some, List.length_append, List.length_singleton] at hlength
          rw [List.length_eq_zero_iff.mp (show hand.length = 0 by omega),
            List.length_eq_zero_iff.mp (show winner.hand.length = 0 by omega)]
          rfl
      stored := (congrArg (· ++ winner.hand) (total_cons_of_nil rfl)).trans
        (hstored.trans (total_cons_of_nil rfl).symm)
      callback := (total_cons_of_nil rfl).trans hcallback'
      owner := (total_cons_of_nil rfl).trans howner'
      frees := congrArg (· ++ [()]) hfrees
      freed := fun _ => rfl }
  · have hmore : shared.strong - 1 ≠ 0 := by omega
    exact {
      strong := by
        change shared.strong - 1 = holds'.toNat + (!shared.consumed).toNat + winner.isRunning.toNat
        omega
      fresh := hquiet
      called := hcalled
      firstWins := ⟨trivial, h.firstWins⟩
      won := by
        rw [total_cons_of_nil rfl]
        exact h.won
      balanced := hbalanced
      stored := hstored
      callback := hcallback'
      owner := howner'
      frees := by
        change _ = marks (decide (shared.strong - 1 = 0))
        rw [hfrees, decide_eq_false hmore]
        rfl
      freed := fun hzero => absurd hzero hmore }

lemma release_winner (shared : Shared R A) (holder : Holder) :
    (shared.release holder).winner = shared.winner := by
  unfold Shared.release
  split_ifs <;> rfl

/-- The owner drops its reference. -/
lemma Handover.dropOwner (h : Handover shared true hand) :
    Handover (shared.release .owner) false hand := by
  have hrelease := @Handover.release _ _ _ _ _ h .owner false shared.winner
    (Nat.add_right_comm 0 _ 1) rfl Iff.rfl (List.append_nil _).symm rfl
  rw [← release_winner shared .owner] at hrelease
  exact hrelease

/-- The winning call drops the reference that it took over. -/
lemma Handover.finish (h : Handover shared holds hand) (hwinner : shared.winner = .releasing) :
    Handover shared.finish holds hand := by
  refine h.release ?_ ?_ ?_ ?_ (List.append_nil _).symm <;> rw [hwinner]
  · rfl
  · rfl
  · exact ⟨nofun, nofun⟩
  · rfl

end Steps

/-- One call of many hands its result over, and the references balance. -/
structure OneShot (shared : Shared R A) (holds : Bool) : Prop where
  firstWins : ∀ later earlier result won, shared.log = later ++ .called result won :: earlier →
    (won = true ↔ ∀ event ∈ earlier, event.isCall = false)
  stores : ∀ result, .stored result ∈ shared.log → .called result true ∈ shared.log
  storesOnce : (total Event.storedResult shared.log).length ≤ 1
  releasesOnce : (total (Event.releases .callback) shared.log).length ≤ 1
  completes : shared.winner = .done → ∃ result, .called result true ∈ shared.log ∧
    .stored result ∈ shared.log ∧ .released .callback ∈ shared.log
  /-- The references of the owner, of the unconsumed context and of the winning call in progress. -/
  strong : shared.strong =
    holds.toNat + (!shared.consumed).toNat + shared.winner.isRunning.toNat
  freesOnce : (total Event.frees shared.log).length ≤ 1
  frees : shared.strong = 0 ↔ ∃ result, .freed result ∈ shared.log
  gone : shared.strong = 0 → holds = false ∧ shared.consumed = true ∧ shared.winner = .done
  returns : ∀ result, .returned (some result) ∈ shared.log → .called result true ∈ shared.log
  returnsOnce : (total Event.returnedResult shared.log).length ≤ 1
  /-- Once the count is zero, the winner's result has been returned or dropped, once. -/
  settled : shared.strong = 0 → ∃ result, .called result true ∈ shared.log ∧
    total Event.ended shared.log = [result]

section Consequences

variable {shared : Shared R A} {holds : Bool} {hand : List R}

lemma mem_won {log : List (Event R)} {result : R} :
    result ∈ total Event.won log ↔ .called result true ∈ log := by
  rw [mem_total]
  constructor
  · rintro ⟨event, hmem, hresult⟩
    rcases event with ⟨other, _ | _⟩ | _ | _ | _ | _
    case called.true => exact List.mem_singleton.mp hresult ▸ hmem
    all_goals cases hresult
  · exact fun hmem => ⟨_, hmem, List.mem_singleton_self result⟩

lemma mem_storedResult {log : List (Event R)} {result : R} :
    result ∈ total Event.storedResult log ↔ .stored result ∈ log := by
  rw [mem_total]
  constructor
  · rintro ⟨event, hmem, hresult⟩
    rcases event with _ | _ | _ | _ | _
    case stored => exact List.mem_singleton.mp hresult ▸ hmem
    all_goals cases hresult
  · exact fun hmem => ⟨_, hmem, List.mem_singleton_self result⟩

lemma mem_releases {log : List (Event R)} {holder : Holder}
    (h : total (Event.releases holder) log = [()]) : .released holder ∈ log := by
  have hmem : () ∈ total (Event.releases holder) log := h ▸ List.mem_singleton_self ()
  rcases mem_total.mp hmem with ⟨event, hevent, hmark⟩
  rcases event with _ | _ | other | _ | _
  case released =>
    change () ∈ (if other = holder then [()] else []) at hmark
    split_ifs at hmark with hother
    · exact hother ▸ hevent
    · cases hmark
  all_goals cases hmark

lemma mem_frees {log : List (Event R)} :
    () ∈ total Event.frees log ↔ ∃ result, .freed result ∈ log := by
  rw [mem_total]
  constructor
  · rintro ⟨event, hmem, hmark⟩
    rcases event with _ | _ | _ | result | _
    case freed => exact ⟨result, hmem⟩
    all_goals cases hmark
  · rintro ⟨result, hmem⟩
    exact ⟨_, hmem, List.mem_singleton_self ()⟩

lemma Handover.won_length (h : Handover shared holds hand) :
    (total Event.won shared.log).length ≤ 1 := by
  rcases h.won with ⟨hwon, -⟩ | ⟨result, hwon, -⟩ <;> rw [hwon]
  · exact Nat.zero_le 1
  · exact Nat.le_refl 1

lemma length_marks (condition : Bool) : (marks condition).length ≤ 1 := by
  cases condition
  · exact Nat.zero_le 1
  · exact Nat.le_refl 1

lemma Handover.gone (h : Handover shared holds hand) (hzero : shared.strong = 0) :
    holds = false ∧ shared.consumed = true ∧ shared.winner = .done := by
  have hstrong := h.strong
  rw [hzero] at hstrong
  have hconsumed : shared.consumed = true := by
    cases hconsumed : shared.consumed
    · rw [hconsumed, Bool.not_false, Bool.toNat_true] at hstrong
      omega
    · rfl
  refine ⟨?_, hconsumed, ?_⟩
  · cases holds
    · rfl
    · rw [Bool.toNat_true] at hstrong
      omega
  · have hcalled := (h.called hconsumed).1
    rcases hwinner : shared.winner with _ | result | signal | _ | _ <;>
      rw [hwinner] at hstrong hcalled
    · exact absurd rfl hcalled
    · rw [Winner.isRunning, Bool.toNat_true] at hstrong
      omega
    · rw [Winner.isRunning, Bool.toNat_true] at hstrong
      omega
    · rw [Winner.isRunning, Bool.toNat_true] at hstrong
      omega

lemma Handover.oneShot (h : Handover shared holds hand) (hhand : holds = false → hand = []) :
    OneShot shared holds := by
  have hbalanced : total Event.won shared.log = _ := h.balanced
  have hended : (total Event.ended shared.log).Sublist (total Event.won shared.log) := by
    rw [hbalanced]
    exact List.sublist_append_left _ _
  have hreturned : (total Event.returnedResult shared.log).Sublist (total Event.won shared.log) := by
    refine (total_sublist fun event => ?_).trans hended
    cases event <;> first | exact .refl _ | exact List.nil_sublist _
  have hstored : (total Event.storedResult shared.log).Sublist (total Event.won shared.log) := by
    rw [← h.stored]
    exact List.sublist_append_left _ _
  exact {
    firstWins := fun later earlier result won hlog => by
      have hfirst := h.firstWins
      rw [hlog] at hfirst
      exact hfirst.of_split
    stores := fun result hmem =>
      mem_won.mp (hstored.subset (mem_total.mpr ⟨_, hmem, List.mem_singleton_self result⟩))
    storesOnce := Nat.le_trans hstored.length_le h.won_length
    releasesOnce := by
      rw [h.callback]
      exact length_marks _
    completes := fun hdone => by
      have hstored := h.stored
      have hcallback := h.callback
      rw [hdone] at hstored hcallback
      rcases h.won with ⟨-, hnot⟩ | ⟨result, hwon, -⟩
      · cases (h.fresh hnot).1.symm.trans hdone
      · rw [hwon] at hstored
        have hmem : result ∈ total Event.storedResult shared.log := by
          rw [(List.append_nil _).symm.trans hstored]
          exact List.mem_singleton_self result
        exact ⟨result, mem_won.mp (hwon ▸ List.mem_singleton_self result),
          mem_storedResult.mp hmem, mem_releases hcallback⟩
    strong := h.strong
    freesOnce := by
      rw [h.frees]
      exact length_marks _
    frees := by
      rw [← mem_frees, h.frees]
      by_cases hzero : shared.strong = 0
      · simp [marks, hzero]
      · simp [marks, hzero]
    gone := h.gone
    returns := fun result hmem =>
      mem_won.mp (hreturned.subset (mem_total.mpr ⟨_, hmem, List.mem_singleton_self result⟩))
    returnsOnce := Nat.le_trans hreturned.length_le h.won_length
    settled := fun hzero => by
      rcases h.gone hzero with ⟨hholds, hconsumed, hdone⟩
      rcases h.won with ⟨-, hnot⟩ | ⟨result, hwon, -⟩
      · cases hnot.symm.trans hconsumed
      · refine ⟨result, mem_won.mp (hwon ▸ List.mem_singleton_self result), ?_⟩
        rw [hwon, hhand hholds, h.freed hzero, hdone] at hbalanced
        exact (List.append_nil _).symm.trans hbalanced.symm }

end Consequences

/-! ### The synchronous completion -/

namespace Sync

variable {T : Type}

def Owner.holds : Owner T → Bool
  | .gone => false
  | _ => true

/-- The result that a wait is about to return. -/
def Owner.hand : Owner T → List (Except String T)
  | .returning answer => answer.toList
  | _ => []

def World.Balances (world : World T) : Prop :=
  Handover world.shared world.owner.holds world.owner.hand

variable {world world' : World T}

/-- The owner moves on with the same reference and the same result in hand. -/
lemma World.Balances.move (h : world.Balances) {owner : Owner T}
    (hholds : owner.holds = world.owner.holds) (hhand : owner.hand = world.owner.hand) :
    World.Balances { world with owner := owner } := by
  unfold World.Balances
  dsimp only
  rw [hholds, hhand]
  exact h

lemma World.Balances.check (h : world.Balances) {timer : Option Timer}
    (howner : world.owner = .checking timer) : (world.check timer).Balances := by
  unfold World.Balances at h
  rw [howner] at h
  have htake := h.take
  unfold World.check
  rcases hfound : world.shared.take with ⟨found, shared⟩
  rw [hfound] at htake
  rcases found with _ | result
  · rcases timer with _ | timer
    · exact htake
    · dsimp only
      rcases timer.remaining world.now with _ | remaining
      · exact htake
      · exact htake
  · exact htake

lemma notifyOne_shared (world : World T) : world.notifyOne.shared = world.shared := by
  unfold World.notifyOne
  rcases world.owner <;> rfl

lemma World.Balances.notifyOne (h : world.Balances) : world.notifyOne.Balances := by
  unfold World.notifyOne
  rcases howner : world.owner with _ | _ | timer | _ | _
  case blocked => exact h.move (by rw [howner]; rfl) (by rw [howner]; rfl)
  all_goals exact h

lemma World.Balances.stepWinner (h : world.Balances) (hnext : world.stepWinner = some world') :
    world'.Balances := by
  unfold World.stepWinner at hnext
  rcases hwinner : world.shared.winner with _ | result | ⟨⟩ | _ | _ <;> rw [hwinner] at hnext <;>
    cases hnext
  · exact Handover.store h hwinner ()
  · have hnotified : world.notifyOne.Balances := h.notifyOne
    rw [← notifyOne_shared] at hwinner
    exact Handover.signalled hnotified hwinner
  · exact Handover.finish h hwinner

lemma World.Balances.next (h : world.Balances) {action : Action T}
    (hnext : world.next action = some world') : world'.Balances := by
  rcases action with ⟨_ | _, result⟩ | _ | _ | timeout | _ | _ | _ | _ | _ <;>
    unfold World.next at hnext <;> dsimp only at hnext
  case complete.null => exact Option.some.inj hnext ▸ h
  case complete.raw =>
    split_ifs at hnext
    exact Option.some.inj hnext ▸ Handover.swap h result
  case winner => exact h.stepWinner hnext
  case wait =>
    split at hnext
    · next howner =>
      exact Option.some.inj hnext ▸ h.move (by rw [howner]; rfl) (by rw [howner]; rfl)
    · cases hnext
  case waitTimeout =>
    split at hnext
    · next howner =>
      exact Option.some.inj hnext ▸ h.move (by rw [howner]; rfl) (by rw [howner]; rfl)
    · cases hnext
  case check =>
    split at hnext
    · next howner => exact Option.some.inj hnext ▸ h.check howner
    · cases hnext
  case wakeUp =>
    split at hnext
    · next howner =>
      exact Option.some.inj hnext ▸ h.move (by rw [howner]; rfl) (by rw [howner]; rfl)
    · cases hnext
  case finish =>
    split at hnext
    · next howner =>
      unfold World.Balances at h
      rw [howner] at h
      exact Option.some.inj hnext ▸ Handover.returned (Handover.dropOwner h)
    · cases hnext
  case drop =>
    split at hnext
    · next howner =>
      unfold World.Balances at h
      rw [howner] at h
      exact Option.some.inj hnext ▸ Handover.dropOwner h
    · cases hnext
  case tick => exact Option.some.inj hnext ▸ h

lemma balances_of_reachable {created : ℕ} (h : (syncSystem T created).Reachable world) :
    world.Balances := by
  refine h.invariant ?_ fun world action world' hworld hnext => hworld.next hnext
  rintro world rfl
  exact handover_new

end Sync

/-! ### The asynchronous completion -/

namespace Async

variable {T W : Type}

def World.Balances (world : World T W) : Prop :=
  Handover world.shared world.future []

variable {world world' : World T W}

lemma World.Balances.stepWinner (h : world.Balances) (hnext : world.stepWinner = some world') :
    world'.Balances := by
  unfold World.stepWinner at hnext
  rcases hwinner : world.shared.winner with _ | result | waker | _ | _ <;> rw [hwinner] at hnext <;>
    cases hnext
  · exact Handover.store h hwinner _
  · exact Handover.signalled h hwinner
  · exact Handover.finish h hwinner

variable [TaskWaker W]

lemma World.Balances.poll (h : world.Balances) (waker : W) : (world.poll waker).Balances := by
  have htake := Handover.take h
  unfold World.poll
  rcases hfound : world.shared.take with ⟨_ | result, shared⟩ <;> rw [hfound] at htake
  · exact htake
  · exact Handover.returned htake

lemma World.Balances.next (h : world.Balances) {action : Action T W}
    (hnext : world.next action = some world') : world'.Balances := by
  rcases action with ⟨_ | _, result⟩ | _ | waker | _ <;> unfold World.next at hnext <;>
    dsimp only at hnext
  case complete.null => exact Option.some.inj hnext ▸ h
  case complete.raw =>
    split_ifs at hnext
    exact Option.some.inj hnext ▸ Handover.swap h result
  case winner => exact h.stepWinner hnext
  case poll =>
    split_ifs at hnext
    exact Option.some.inj hnext ▸ h.poll waker
  case drop =>
    split_ifs at hnext with hfuture
    unfold World.Balances at h
    rw [hfuture] at h
    exact Option.some.inj hnext ▸ Handover.dropOwner h

lemma balances_of_reachable (h : (asyncSystem T W).Reachable world) : world.Balances := by
  refine h.invariant ?_ fun world action world' hworld hnext => hworld.next hnext
  rintro world rfl
  exact handover_new

end Async

/-! ### Both completions -/

/-- A context is one-shot: the references balance, a call on a consumed or a null context leaves
everything but the history as it is, and the winning call can go on to its end. -/
structure Sync.World.IsOneShot {T : Type} (world : Sync.World T) : Prop where
  oneShot : OneShot world.shared world.owner.holds
  ignores : ∀ context result world', world.next (.complete context result) = some world' →
    context = .null ∨ world.shared.consumed = true →
    ∃ log, world' = { world with shared := { world.shared with log := log } }
  goesOn : world.shared.winner.isRunning = true → (world.next .winner).isSome = true

structure Async.World.IsOneShot {T W : Type} [TaskWaker W] (world : Async.World T W) : Prop where
  oneShot : OneShot world.shared world.future
  ignores : ∀ context result world', world.next (.complete context result) = some world' →
    context = .null ∨ world.shared.consumed = true →
    ∃ log, world' = { world with shared := { world.shared with log := log } }
  goesOn : world.shared.winner.isRunning = true → (world.next .winner).isSome = true

lemma Shared.swap_consumed {shared : Shared R A} (h : shared.consumed = true) (result : R) :
    shared.swap result = { shared with log := .called result false :: shared.log } :=
  if_pos h

lemma Sync.isOneShot {T : Type} {world : Sync.World T} (h : world.Balances) : world.IsOneShot where
  oneShot := by
    refine Handover.oneShot h fun hholds => ?_
    rcases howner : world.owner <;> rw [howner] at hholds <;> first | rfl | cases hholds
  ignores context result world' hnext hduplicate := by
    cases context
    · exact ⟨world.shared.log, (Option.some.inj hnext).symm⟩
    · rcases hduplicate with hnull | hconsumed
      · cases hnull
      · unfold World.next at hnext
        dsimp only at hnext
        split_ifs at hnext
        rw [Shared.swap_consumed hconsumed] at hnext
        exact ⟨_, (Option.some.inj hnext).symm⟩
  goesOn hrunning := by
    change world.stepWinner.isSome = true
    unfold World.stepWinner
    rcases hwinner : world.shared.winner <;> rw [hwinner] at hrunning <;> first | rfl | cases hrunning

lemma Async.isOneShot {T W : Type} [TaskWaker W] {world : Async.World T W} (h : world.Balances) :
    world.IsOneShot where
  oneShot := Handover.oneShot h fun _ => rfl
  ignores context result world' hnext hduplicate := by
    cases context
    · exact ⟨world.shared.log, (Option.some.inj hnext).symm⟩
    · rcases hduplicate with hnull | hconsumed
      · cases hnull
      · unfold World.next at hnext
        dsimp only at hnext
        split_ifs at hnext
        rw [Shared.swap_consumed hconsumed] at hnext
        exact ⟨_, (Option.some.inj hnext).symm⟩
  goesOn hrunning := by
    change world.stepWinner.isSome = true
    unfold World.stepWinner
    rcases hwinner : world.shared.winner <;> rw [hwinner] at hrunning <;> first | rfl | cases hrunning

/-- The contexts of both completions are one-shot and their references balance. -/
theorem contexts_one_shot {T W : Type} [TaskWaker W] {created : ℕ} {sync : Sync.World T}
    {async : Async.World T W} (hsync : (Sync.syncSystem T created).Reachable sync)
    (hasync : (Async.asyncSystem T W).Reachable async) : sync.IsOneShot ∧ async.IsOneShot :=
  ⟨Sync.isOneShot (Sync.balances_of_reachable hsync),
    Async.isOneShot (Async.balances_of_reachable hasync)⟩

/-- A callback that comes after the timeout and drops its value, and one that is called twice
around the drop of its future. -/
theorem contexts_one_shot_late :
    let sync := (System.replay Sync.World.next (Sync.World.start 0 : Sync.World ℕ)
      [.waitTimeout 1, .check, .tick, .tick, .wakeUp, .check, .finish, .complete .raw (.ok 5),
        .winner, .winner, .winner]).get rfl
    let async := (System.replay Async.World.next (Async.World.start : Async.World ℕ RawWaker)
      [.poll ⟨1, 1⟩, .complete .raw (.ok 5), .complete .raw (.error "denied"), .drop, .winner,
        .complete .null (.ok 6), .winner, .winner]).get rfl
    sync.IsOneShot ∧ async.IsOneShot :=
  contexts_one_shot (System.reachable_replay rfl) (System.reachable_replay rfl)

end DoomFishUtils.Completion
