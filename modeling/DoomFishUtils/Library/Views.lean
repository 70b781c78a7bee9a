import Mathlib.Data.List.Basic
import Mathlib.Order.Lattice.Nat

/-!
# Release and acquire

Atomic locations and plain cells that threads share under release and acquire.  A location has a
modification order of messages, and a load may read any message that is not older than what its thread
has seen there; it takes over what the message's sender knew.  What a thread knows of the accesses to a
cell is what happens before its own.
-/

namespace DoomFishUtils.Library

set_option autoImplicit false

/-- Of each location how far its modification order has been seen, and of each cell how many of its
accesses happen before. -/
abbrev View (L N : Type*) :=
  (L → ℕ) × (N → ℕ)

structure Message (L N A : Type*) where
  value : A
  view : View L N

namespace View

variable {L N : Type*}

/-- A location seen up to an index. -/
def upTo [DecidableEq L] (l : L) (index : ℕ) : View L N :=
  (Function.update (fun _ => 0) l index, fun _ => 0)

/-- A number of accesses to a cell. -/
def done [DecidableEq N] (n : N) (count : ℕ) : View L N :=
  (fun _ => 0, Function.update (fun _ => 0) n count)

lemma le_upTo [DecidableEq L] {view : View L N} {l : L} {index : ℕ}
    (h : upTo l index ≤ view) : index ≤ view.1 l := by
  have hle := h.1 l
  unfold upTo at hle
  dsimp only at hle
  rwa [Function.update_self] at hle

lemma le_done [DecidableEq N] {view : View L N} {n : N} {count : ℕ}
    (h : done n count ≤ view) : count ≤ view.2 n := by
  have hle := h.2 n
  unfold done at hle
  dsimp only at hle
  rwa [Function.update_self] at hle

end View

/-- The modification orders, earliest message first, how many accesses the cells have had, and the
views of the threads. -/
structure Memory (ι L N A : Type*) where
  order : L → List (Message L N A)
  accesses : N → ℕ
  views : ι → View L N

namespace Memory

variable {ι L N A : Type*}

/-- A thread knows more. -/
def learn [DecidableEq ι] (m : Memory ι L N A) (t : ι) (view : View L N) : Memory ι L N A :=
  { m with views := Function.update m.views t (m.views t ⊔ view) }

section Operations

variable [DecidableEq ι] [DecidableEq L] (m : Memory ι L N A) (t : ι) (l : L)

/-- A thread has read the message at an index. -/
def acquire (index : ℕ) : Memory ι L N A :=
  match (m.order l)[index]? with
  | none => m
  | some message => m.learn t (message.view ⊔ .upTo l index)

/-- A thread has read the latest message, as an access does that is sequentially consistent or a
read-modify-write. -/
def acquireLatest : Memory ι L N A :=
  m.acquire t l ((m.order l).length - 1)

/-- A thread has stored a value as the latest message. -/
def release (value : A) : Memory ι L N A :=
  let view := m.views t ⊔ .upTo l (m.order l).length
  { m.learn t (.upTo l (m.order l).length) with
    order := Function.update m.order l (m.order l ++ [⟨value, view⟩]) }

/-- A thread has replaced the latest message in one access, which acquires or not and releases or not.
The new message passes on what the old one says. -/
def exchange (acquires releases : Bool) (value : A) : Memory ι L N A :=
  match (m.order l).getLast? with
  | none => m
  | some message =>
    let seen := View.upTo l (m.order l).length
    let learned := m.learn t (if acquires then seen ⊔ message.view else seen)
    let view := message.view ⊔ if releases then learned.views t else seen
    { learned with order := Function.update m.order l (m.order l ++ [⟨value, view⟩]) }

/-- A thread has accessed a cell. -/
def access [DecidableEq N] (n : N) : Memory ι L N A :=
  { m.learn t (.done n (m.accesses n + 1)) with
    accesses := Function.update m.accesses n (m.accesses n + 1) }

end Operations

/-- An access of the thread to the cell would race with an earlier one. -/
def Races (m : Memory ι L N A) (t : ι) (n : N) : Prop :=
  (m.views t).2 n < m.accesses n

/-- A store of the thread to the location could come before another one that it has not seen. -/
def Overtakes (m : Memory ι L N A) (t : ι) (l : L) : Prop :=
  (m.views t).1 l + 1 < (m.order l).length

/-! ### A cell that changes hands through a location -/

/-- A thread that may access the cell and store to the location. -/
structure Owns (m : Memory ι L N A) (t : ι) (l : L) (n : N) : Prop where
  seen : (m.order l).length ≤ (m.views t).1 l + 1
  done : m.accesses n ≤ (m.views t).2 n

/-- The latest message of the location hands the cell over. -/
def Hands (m : Memory ι L N A) (l : L) (n : N) : Prop :=
  ∃ message, (m.order l).getLast? = some message ∧ m.accesses n ≤ message.view.2 n

/-- A thread has read a value from the location. -/
def Saw (m : Memory ι L N A) (t : ι) (l : L) (value : A) : Prop :=
  ∃ index message, (m.order l)[index]? = some message ∧ message.value = value ∧
    message.view ≤ m.views t ∧ index ≤ (m.views t).1 l

/-- A thread knows of all accesses to the cell. -/
def Knows (m : Memory ι L N A) (t : ι) (n : N) : Prop :=
  m.accesses n ≤ (m.views t).2 n

/-- A thread knows what the latest message of the location says. -/
def Current (m : Memory ι L N A) (t : ι) (l : L) : Prop :=
  ∀ message, (m.order l).getLast? = some message → message.view ≤ m.views t

/-- What happens to locations and views: orders grow at their ends, and views grow. -/
structure Extends (m m' : Memory ι L N A) : Prop where
  order : ∀ l, m.order l <+: m'.order l
  views : ∀ t, m.views t ≤ m'.views t

/-- No view is ahead of the modification orders. -/
structure Bounded (m : Memory ι L N A) : Prop where
  views : ∀ t l, (m.views t).1 l < (m.order l).length
  messages : ∀ l message, message ∈ m.order l → ∀ l', message.view.1 l' < (m.order l').length

variable {m m' m'' : Memory ι L N A} {t : ι} {l : L} {n : N} {value : A}

lemma Owns.not_races (h : m.Owns t l n) : ¬m.Races t n :=
  Nat.not_lt.mpr h.done

lemma Owns.not_overtakes (h : m.Owns t l n) : ¬m.Overtakes t l :=
  Nat.not_lt.mpr h.seen

lemma Knows.not_races (h : m.Knows t n) : ¬m.Races t n :=
  Nat.not_lt.mpr h

lemma Hands.knows (h : m.Hands l n) (hcurrent : m.Current t l) : m.Knows t n := by
  rcases h with ⟨message, hlast, hdone⟩
  exact hdone.trans ((hcurrent message hlast).2 n)

lemma Extends.refl (m : Memory ι L N A) : m.Extends m :=
  ⟨fun _ => List.prefix_refl _, fun _ => le_refl _⟩

lemma Extends.trans (h : m.Extends m') (h' : m'.Extends m'') : m.Extends m'' :=
  ⟨fun l => (h.order l).trans (h'.order l), fun t => (h.views t).trans (h'.views t)⟩

lemma Owns.extend (h : m.Owns t l n) (hext : m.Extends m') (horder : m'.order l = m.order l)
    (haccesses : m'.accesses n = m.accesses n) : m'.Owns t l n where
  seen := by
    rw [horder]
    exact h.seen.trans (Nat.succ_le_succ ((hext.views t).1 l))
  done := by
    rw [haccesses]
    exact h.done.trans ((hext.views t).2 n)

lemma Knows.extend (h : m.Knows t n) (hext : m.Extends m')
    (haccesses : m'.accesses n = m.accesses n) : m'.Knows t n := by
  rw [Knows, haccesses]
  exact h.trans ((hext.views t).2 n)

lemma Current.extend (h : m.Current t l) (hext : m.Extends m')
    (horder : m'.order l = m.order l) : m'.Current t l := by
  intro message hlast
  rw [horder] at hlast
  exact (h message hlast).trans (hext.views t)

lemma Hands.congr (h : m.Hands l n) (horder : m'.order l = m.order l)
    (haccesses : m'.accesses n = m.accesses n) : m'.Hands l n := by
  unfold Hands
  rw [horder, haccesses]
  exact h

lemma Saw.extend (h : m.Saw t l value) (hext : m.Extends m') : m'.Saw t l value := by
  rcases h with ⟨index, message, hget, hvalue, hview, hindex⟩
  rcases hext.order l with ⟨rest, hrest⟩
  refine ⟨index, message, ?_, hvalue, hview.trans (hext.views t),
    hindex.trans ((hext.views t).1 l)⟩
  rw [← hrest, List.getElem?_append_left (List.getElem?_eq_some_iff.mp hget).1, hget]

/-- Who has read the latest of the values, which never repeat, takes the cell over. -/
lemma Saw.owns (h : m.Saw t l value)
    (hnodup : ((m.order l).map Message.value).Nodup)
    (hlatest : (m.order l).getLast?.map Message.value = some value) (hhands : m.Hands l n) :
    m.Owns t l n := by
  rcases h with ⟨index, message, hget, hvalue, hview, hindex⟩
  rcases hhands with ⟨last, hlast, hdone⟩
  rw [hlast, Option.map_some, Option.some.injEq] at hlatest
  rw [List.getLast?_eq_getElem?] at hlast
  have hlt := (List.getElem?_eq_some_iff.mp hget).1
  have hsame : index = (m.order l).length - 1 := by
    have hmap : ((m.order l).map Message.value)[index]? =
        ((m.order l).map Message.value)[(m.order l).length - 1]? := by
      rw [List.getElem?_map, List.getElem?_map, hget, hlast, Option.map_some, Option.map_some,
        hvalue, hlatest]
    exact (List.getElem?_inj (by rwa [List.length_map]) hnodup).mp hmap
  subst hsame
  obtain rfl : message = last := Option.some.inj (hget.symm.trans hlast)
  exact ⟨by omega, hdone.trans (hview.2 n)⟩

/-! ### What the operations do -/

section Operations

variable [DecidableEq ι]

lemma learn_views (m : Memory ι L N A) (t : ι) (view : View L N) :
    (m.learn t view).views t = m.views t ⊔ view :=
  Function.update_self ..

lemma learn_views_of_ne (m : Memory ι L N A) (view : View L N) {t u : ι} (h : u ≠ t) :
    (m.learn t view).views u = m.views u :=
  Function.update_of_ne h ..

lemma extends_learn (m : Memory ι L N A) (t : ι) (view : View L N) : m.Extends (m.learn t view) where
  order _ := List.prefix_refl _
  views u := by
    by_cases hu : u = t
    · subst hu
      rw [learn_views]
      exact le_sup_left
    · rw [learn_views_of_ne _ _ hu]

section Access

variable [DecidableEq N]

@[simp] lemma access_order (m : Memory ι L N A) (t : ι) (n : N) :
    (m.access t n).order = m.order :=
  rfl

lemma access_accesses_of_ne (m : Memory ι L N A) (t : ι) {n n' : N} (h : n' ≠ n) :
    (m.access t n).accesses n' = m.accesses n' :=
  Function.update_of_ne h ..

lemma extends_access (m : Memory ι L N A) (t : ι) (n : N) : m.Extends (m.access t n) :=
  ⟨fun _ => List.prefix_refl _, (extends_learn m t (.done n (m.accesses n + 1))).views⟩

lemma knows_access (m : Memory ι L N A) (t : ι) (n : N) : (m.access t n).Knows t n := by
  have hviews : (m.access t n).views t = m.views t ⊔ .done n (m.accesses n + 1) :=
    learn_views m t _
  have haccesses : (m.access t n).accesses n = m.accesses n + 1 := Function.update_self ..
  rw [Knows, hviews, haccesses]
  exact View.le_done le_sup_right

lemma Owns.access (h : m.Owns t l n) : (m.access t n).Owns t l n where
  seen := h.seen.trans (Nat.succ_le_succ (((extends_access m t n).views t).1 l))
  done := knows_access m t n

end Access

variable [DecidableEq L]

@[simp] lemma acquire_order (m : Memory ι L N A) (t : ι) (l : L) (index : ℕ) :
    (m.acquire t l index).order = m.order := by
  unfold acquire
  split <;> rfl

@[simp] lemma acquire_accesses (m : Memory ι L N A) (t : ι) (l : L) (index : ℕ) :
    (m.acquire t l index).accesses = m.accesses := by
  unfold acquire
  split <;> rfl

lemma extends_acquire (m : Memory ι L N A) (t : ι) (l : L) (index : ℕ) :
    m.Extends (m.acquire t l index) := by
  unfold acquire
  split
  · exact .refl m
  · exact extends_learn ..

lemma saw_acquire {message : Message L N A} {index : ℕ} (h : (m.order l)[index]? = some message)
    (t : ι) : (m.acquire t l index).Saw t l message.value := by
  refine ⟨index, message, by rw [acquire_order, h], rfl, ?_⟩
  unfold acquire
  rw [h]
  dsimp only
  rw [learn_views]
  exact ⟨le_sup_left.trans le_sup_right, View.le_upTo (le_sup_right.trans le_sup_right)⟩

@[simp] lemma acquireLatest_order (m : Memory ι L N A) (t : ι) (l : L) :
    (m.acquireLatest t l).order = m.order :=
  acquire_order m t l _

@[simp] lemma acquireLatest_accesses (m : Memory ι L N A) (t : ι) (l : L) :
    (m.acquireLatest t l).accesses = m.accesses :=
  acquire_accesses m t l _

lemma extends_acquireLatest (m : Memory ι L N A) (t : ι) (l : L) :
    m.Extends (m.acquireLatest t l) :=
  extends_acquire m t l _

@[simp] lemma release_accesses (m : Memory ι L N A) (t : ι) (l : L) (value : A) :
    (m.release t l value).accesses = m.accesses :=
  rfl

lemma release_order (m : Memory ι L N A) (t : ι) (l : L) (value : A) :
    (m.release t l value).order l =
      m.order l ++ [⟨value, m.views t ⊔ .upTo l (m.order l).length⟩] :=
  Function.update_self ..

lemma release_order_of_ne (m : Memory ι L N A) (t : ι) (value : A) {l l' : L} (h : l' ≠ l) :
    (m.release t l value).order l' = m.order l' :=
  Function.update_of_ne h ..

lemma extends_release (m : Memory ι L N A) (t : ι) (l : L) (value : A) :
    m.Extends (m.release t l value) where
  order l' := by
    by_cases hl : l' = l
    · subst hl
      rw [release_order]
      exact List.prefix_append ..
    · rw [release_order_of_ne m t value hl]
  views := (extends_learn m t (.upTo l (m.order l).length)).views

/-- The store of who owns a cell hands it over. -/
lemma Owns.hands_release (h : m.Owns t l n) (value : A) : (m.release t l value).Hands l n := by
  refine ⟨⟨value, m.views t ⊔ .upTo l (m.order l).length⟩, ?_, ?_⟩
  · rw [release_order, List.getLast?_concat]
  · exact h.done.trans ((le_sup_left : m.views t ≤ _).2 n)

/-! ### Views stay behind the orders -/

omit [DecidableEq ι] in
lemma Bounded.upTo (h : m.Bounded) (t : ι) {index : ℕ} (hindex : index < (m.order l).length) (l' : L) :
    (View.upTo l index : View L N).1 l' < (m.order l').length := by
  unfold View.upTo
  dsimp only
  by_cases hl : l' = l
  · subst hl
    rwa [Function.update_self]
  · rw [Function.update_of_ne hl]
    exact Nat.zero_lt_of_lt (h.views t l')

omit [DecidableEq L] in
lemma Bounded.learn (h : m.Bounded) (t : ι) {view : View L N}
    (hview : ∀ l, view.1 l < (m.order l).length) : (m.learn t view).Bounded where
  views u l := by
    by_cases hu : u = t
    · subst hu
      rw [learn_views]
      exact max_lt (h.views u l) (hview l)
    · rw [learn_views_of_ne _ _ hu]
      exact h.views u l
  messages := h.messages

lemma Bounded.acquire (h : m.Bounded) (t : ι) (l : L) (index : ℕ) :
    (m.acquire t l index).Bounded := by
  unfold Memory.acquire
  split
  · exact h
  · next message hmessage =>
    refine h.learn t fun l' => max_lt (h.messages l message (List.mem_of_getElem? hmessage) l') ?_
    exact h.upTo t (List.getElem?_eq_some_iff.mp hmessage).1 l'

lemma Bounded.acquireLatest (h : m.Bounded) (t : ι) (l : L) : (m.acquireLatest t l).Bounded :=
  h.acquire t l _

omit [DecidableEq L] in
lemma Bounded.access [DecidableEq N] (h : m.Bounded) (t : ι) (n : N) : (m.access t n).Bounded := by
  have hlearned : (m.learn t (.done n (m.accesses n + 1))).Bounded :=
    h.learn t fun l => Nat.zero_lt_of_lt (h.views t l)
  exact ⟨hlearned.views, hlearned.messages⟩

lemma Bounded.release (h : m.Bounded) (t : ι) (l : L) (value : A) :
    (m.release t l value).Bounded := by
  have hlength : ∀ l', (m.order l').length ≤ ((m.release t l value).order l').length :=
    fun l' => ((m.extends_release t l value).order l').length_le
  have hnew : (m.order l).length < ((m.release t l value).order l).length := by
    rw [release_order, List.length_append]
    exact Nat.lt_succ_self _
  have hseen : ∀ l', (m.views t ⊔ .upTo l (m.order l).length).1 l' <
      ((m.release t l value).order l').length := by
    intro l'
    refine max_lt ((h.views t l').trans_le (hlength l')) ?_
    unfold View.upTo
    dsimp only
    by_cases hl : l' = l
    · subst hl
      rwa [Function.update_self]
    · rw [Function.update_of_ne hl]
      exact (Nat.zero_lt_of_lt (h.views t l')).trans_le (hlength l')
  refine ⟨fun u l' => ?_, fun l' message hmessage l'' => ?_⟩
  · have hviews : (m.release t l value).views = (m.learn t (.upTo l (m.order l).length)).views := rfl
    rw [hviews]
    by_cases hu : u = t
    · subst hu
      rw [learn_views]
      exact hseen l'
    · rw [learn_views_of_ne _ _ hu]
      exact (h.views u l').trans_le (hlength l')
  · have hold : message ∈ m.order l' →
        message.view.1 l'' < ((m.release t l value).order l'').length :=
      fun hmem => (h.messages l' message hmem l'').trans_le (hlength l'')
    by_cases hl : l' = l
    · subst hl
      rw [release_order] at hmessage
      rcases List.mem_append.mp hmessage with hmem | hmem
      · exact hold hmem
      · obtain rfl := List.mem_singleton.mp hmem
        exact hseen l''
    · rw [release_order_of_ne m t value hl] at hmessage
      exact hold hmessage

section Exchange

variable (m : Memory ι L N A) (t : ι) (l : L) (acquires releases : Bool) (value : A)

@[simp] lemma exchange_accesses :
    (m.exchange t l acquires releases value).accesses = m.accesses := by
  unfold exchange
  split <;> rfl

lemma exchange_views_of_ne {u : ι} (hu : u ≠ t) :
    (m.exchange t l acquires releases value).views u = m.views u := by
  unfold exchange
  split
  · rfl
  · exact learn_views_of_ne m _ hu

lemma extends_exchange : m.Extends (m.exchange t l acquires releases value) := by
  unfold exchange
  split
  · exact .refl m
  · refine ⟨fun l' => ?_, (extends_learn m t _).views⟩
    by_cases hl : l' = l
    · subst hl
      dsimp only
      rw [Function.update_self]
      exact List.prefix_append ..
    · dsimp only
      rw [Function.update_of_ne hl]

variable {m} {message : Message L N A}

/-- The message that an exchange leaves. -/
lemma exchange_order (hlast : (m.order l).getLast? = some message) :
    ∃ view, (m.exchange t l acquires releases value).order l = m.order l ++ [⟨value, view⟩] ∧
      message.view ≤ view ∧ (releases = true → m.views t ≤ view) ∧
      (acquires = true → view ≤ (m.exchange t l acquires releases value).views t) ∧
      (m.order l).length ≤ ((m.exchange t l acquires releases value).views t).1 l := by
  unfold exchange
  rw [hlast]
  dsimp only
  refine ⟨_, Function.update_self .., le_sup_left, fun hreleases => ?_, fun hacquires => ?_, ?_⟩
  · rw [if_pos hreleases, learn_views]
    exact le_sup_left.trans le_sup_right
  · rw [if_pos hacquires, learn_views]
    refine sup_le (le_sup_right.trans le_sup_right) ?_
    split_ifs
    · exact le_rfl
    · exact le_sup_left.trans le_sup_right
  · rw [learn_views]
    split_ifs
    · exact View.le_upTo (le_sup_left.trans le_sup_right)
    · exact View.le_upTo le_sup_right

variable {l}

/-- What has been handed over once goes on from message to message. -/
lemma Hands.exchange (h : m.Hands l n) : (m.exchange t l acquires releases value).Hands l n := by
  rcases h with ⟨message, hlast, hdone⟩
  obtain ⟨view, horder, hview, -⟩ := exchange_order t l acquires releases value hlast
  refine ⟨⟨value, view⟩, by rw [horder, List.getLast?_concat], ?_⟩
  rw [exchange_accesses]
  exact hdone.trans (hview.2 n)

lemma current_exchange (hlast : (m.order l).getLast? = some message) :
    (m.exchange t l true releases value).Current t l := by
  obtain ⟨view, horder, -, -, hacquires, -⟩ := exchange_order t l true releases value hlast
  intro message hmessage
  rw [horder, List.getLast?_concat] at hmessage
  obtain rfl := Option.some.inj hmessage
  exact hacquires rfl

lemma Knows.hands_exchange (h : m.Knows t n) (hlast : (m.order l).getLast? = some message) :
    (m.exchange t l acquires true value).Hands l n := by
  obtain ⟨view, horder, -, hreleases, -, -⟩ := exchange_order t l acquires true value hlast
  refine ⟨⟨value, view⟩, by rw [horder, List.getLast?_concat], ?_⟩
  rw [exchange_accesses]
  exact h.trans ((hreleases rfl).2 n)

end Exchange

end Operations

end Memory

end DoomFishUtils.Library
