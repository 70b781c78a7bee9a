import Mathlib.Data.List.Forall2
import Mathlib.Data.List.Induction
import Mathlib.Data.List.Sort

/-!
# Ordered maps as sorted entry lists

A map is the list of its entries in strictly increasing key order.  Inserting the members
of a list one after another leaves, for each key, the last member that has it.
-/

namespace DoomFishUtils.Library

set_option autoImplicit false

variable {K V : Type*} [LinearOrder K]

/-- The entries are in strictly increasing key order. -/
def SortedKeys (entries : List (K × V)) : Prop :=
  entries.Pairwise fun first second => first.1 < second.1

instance (entries : List (K × V)) : Decidable (SortedKeys entries) :=
  inferInstanceAs (Decidable (entries.Pairwise fun first second => first.1 < second.1))

/-- Sets the value of a key, keeping the order. -/
def insertEntry (key : K) (value : V) : List (K × V) → List (K × V)
  | [] => [(key, value)]
  | (k, v) :: rest =>
    if key < k then (key, value) :: (k, v) :: rest
    else if key = k then (key, value) :: rest
    else (k, v) :: insertEntry key value rest

/-- Removes a key. -/
def eraseEntry (key : K) (entries : List (K × V)) : List (K × V) :=
  entries.filter fun entry => entry.1 ≠ key

/-- `value` is the value of the last member that has the key. -/
def LastValue (members : List (K × V)) (key : K) (value : V) : Prop :=
  ∃ front back, members = front ++ (key, value) :: back ∧ ∀ member ∈ back, member.1 ≠ key

/-- The map that holds, for each key, its last value in a list of members. -/
structure LastWins (members entries : List (K × V)) : Prop where
  sorted : SortedKeys entries
  mem_iff : ∀ key value, (key, value) ∈ entries ↔ LastValue members key value

lemma mem_insertEntry_of_mem {key : K} {value : V} {entry : K × V} {entries : List (K × V)}
    (h : entry ∈ insertEntry key value entries) : entry = (key, value) ∨ entry ∈ entries := by
  induction entries with
  | nil => simpa [insertEntry] using h
  | cons head rest ih =>
    unfold insertEntry at h
    split_ifs at h with hlt heq
    · simpa using h
    · rcases List.mem_cons.mp h with h | h
      · exact .inl h
      · exact .inr (List.mem_cons_of_mem _ h)
    · rcases List.mem_cons.mp h with h | h
      · exact .inr (h ▸ List.mem_cons_self)
      · exact (ih h).imp_right (List.mem_cons_of_mem _)

lemma SortedKeys.insertEntry {entries : List (K × V)} (h : SortedKeys entries) (key : K)
    (value : V) : SortedKeys (insertEntry key value entries) := by
  induction entries with
  | nil => exact List.pairwise_singleton _ _
  | cons head rest ih =>
    rcases List.pairwise_cons.mp h with ⟨hhead, hrest⟩
    unfold Library.insertEntry
    split_ifs with hlt heq
    · refine List.pairwise_cons.mpr ⟨fun entry hentry => ?_, h⟩
      rcases List.mem_cons.mp hentry with rfl | hentry
      · exact hlt
      · exact hlt.trans (hhead entry hentry)
    · exact List.pairwise_cons.mpr ⟨fun entry hentry => heq ▸ hhead entry hentry, hrest⟩
    · refine List.pairwise_cons.mpr ⟨fun entry hentry => ?_, ih hrest⟩
      rcases mem_insertEntry_of_mem hentry with rfl | hentry
      · exact lt_of_le_of_ne (not_lt.mp hlt) (Ne.symm heq)
      · exact hhead entry hentry

/-- After an insertion the key has the new value and every other key its old one. -/
lemma mem_insertEntry {entries : List (K × V)} (h : SortedKeys entries) {key k : K}
    {value v : V} :
    (k, v) ∈ insertEntry key value entries ↔
      (k = key ∧ v = value) ∨ (k ≠ key ∧ (k, v) ∈ entries) := by
  induction entries with
  | nil => simp [insertEntry]
  | cons head rest ih =>
    rcases head with ⟨k', v'⟩
    rcases List.pairwise_cons.mp h with ⟨hhead, hrest⟩
    have habove : (k, v) ∈ rest → k' < k := hhead (k, v)
    unfold insertEntry
    split_ifs with hlt heq
    · simp only [List.mem_cons, Prod.mk.injEq]
      constructor
      · rintro (hnew | ⟨rfl, rfl⟩ | hold)
        · exact .inl hnew
        · exact .inr ⟨hlt.ne', .inl ⟨rfl, rfl⟩⟩
        · exact .inr ⟨(hlt.trans (habove hold)).ne', .inr hold⟩
      · rintro (hnew | ⟨-, hold⟩)
        · exact .inl hnew
        · exact .inr hold
    · simp only [List.mem_cons, Prod.mk.injEq]
      constructor
      · rintro (hnew | hold)
        · exact .inl hnew
        · exact .inr ⟨heq ▸ (habove hold).ne', .inr hold⟩
      · rintro (hnew | ⟨hne, ⟨rfl, rfl⟩ | hold⟩)
        · exact .inl hnew
        · exact absurd heq.symm hne
        · exact .inr hold
    · simp only [List.mem_cons, ih hrest, Prod.mk.injEq]
      constructor
      · rintro (⟨rfl, rfl⟩ | hnew | ⟨hne, hold⟩)
        · exact .inr ⟨Ne.symm heq, .inl ⟨rfl, rfl⟩⟩
        · exact .inl hnew
        · exact .inr ⟨hne, .inr hold⟩
      · rintro (hnew | ⟨hne, hold | hold⟩)
        · exact .inr (.inl hnew)
        · exact .inl hold
        · exact .inr (.inr ⟨hne, hold⟩)

lemma SortedKeys.eraseEntry {entries : List (K × V)} (h : SortedKeys entries) (key : K) :
    SortedKeys (eraseEntry key entries) :=
  h.filter _

lemma mem_eraseEntry {entries : List (K × V)} {key k : K} {v : V} :
    (k, v) ∈ eraseEntry key entries ↔ k ≠ key ∧ (k, v) ∈ entries := by
  simp [eraseEntry, and_comm]

/-! ### What becomes of the values -/

lemma SortedKeys.lookup_eq_none {entries : List (K × V)} {key : K}
    (h : ∀ entry ∈ entries, key < entry.1) : entries.lookup key = none := by
  refine List.lookup_eq_none_iff.mpr fun entry hmem => ?_
  rw [bne_iff_ne]
  exact (h entry hmem).ne

lemma SortedKeys.lookup_eq_some_iff [BEq K] [LawfulBEq K] {entries : List (K × V)} (h : SortedKeys entries) {key : K}
    {value : V} : entries.lookup key = some value ↔ (key, value) ∈ entries := by
  rw [List.lookup_eq_some_iff]
  constructor
  · rintro ⟨front, back, rfl, -⟩
    exact List.mem_append_right _ List.mem_cons_self
  · intro hmem
    rcases List.append_of_mem hmem with ⟨front, back, rfl⟩
    refine ⟨front, back, rfl, fun entry hentry => ?_⟩
    have hlt := (List.pairwise_append.mp h).2.2 entry hentry (key, value) List.mem_cons_self
    rw [bne_iff_ne]
    exact hlt.ne'

omit [LinearOrder K] in
lemma lookup_eq_none_iff [BEq K] [LawfulBEq K] {entries : List (K × V)} {key : K} :
    entries.lookup key = none ↔ ∀ value, (key, value) ∉ entries := by
  rw [List.lookup_eq_none_iff]
  refine ⟨fun h value hmem => ?_, fun h entry hmem => ?_⟩
  · simpa using h _ hmem
  · rw [bne_iff_ne]
    rintro rfl
    exact h entry.2 hmem

/-- The value that an insertion replaces is the only one that leaves. -/
lemma values_insertEntry {entries : List (K × V)} (h : SortedKeys entries) (key : K) (value : V) :
    (entries.map Prod.snd ++ [value]).Perm
      ((insertEntry key value entries).map Prod.snd ++ (entries.lookup key).toList) := by
  induction entries with
  | nil => exact .refl _
  | cons head rest ih =>
    rcases head with ⟨k, v⟩
    rcases List.pairwise_cons.mp h with ⟨hhead, hrest⟩
    unfold insertEntry
    split_ifs with hlt heq
    · have hnone : ((k, v) :: rest).lookup key = none := by
        refine SortedKeys.lookup_eq_none fun entry hmem => ?_
        rcases List.mem_cons.mp hmem with rfl | hmem
        · exact hlt
        · exact hlt.trans (hhead entry hmem)
      rw [hnone, Option.toList_none, List.append_nil]
      exact List.perm_append_singleton value _
    · rw [List.lookup_cons, beq_iff_eq.mpr heq]
      exact (List.perm_append_singleton value _).trans
        ((List.Perm.swap v value _).trans (List.perm_append_singleton v _).symm)
    · rw [List.lookup_cons, beq_eq_false_iff_ne.mpr heq]
      exact (ih hrest).cons v

/-- The value that an erasure finds is the only one that leaves. -/
lemma values_eraseEntry {entries : List (K × V)} (h : SortedKeys entries) (key : K) :
    (entries.map Prod.snd).Perm
      ((eraseEntry key entries).map Prod.snd ++ (entries.lookup key).toList) := by
  induction entries with
  | nil => exact .refl _
  | cons head rest ih =>
    rcases head with ⟨k, v⟩
    rcases List.pairwise_cons.mp h with ⟨hhead, hrest⟩
    unfold eraseEntry at ih ⊢
    rw [List.lookup_cons]
    by_cases heq : key = k
    · have hall : (rest.filter fun entry => entry.1 ≠ key) = rest :=
        List.filter_eq_self.mpr fun entry hmem =>
          decide_eq_true (heq ▸ (hhead entry hmem).ne')
      rw [beq_iff_eq.mpr heq, List.filter_cons_of_neg (by simpa using heq.symm), hall]
      exact (List.perm_append_singleton v _).symm
    · rw [beq_eq_false_iff_ne.mpr heq, List.filter_cons_of_pos (by simpa using Ne.symm heq)]
      exact (ih hrest).cons v

omit [LinearOrder K] in
lemma lastValue_append_singleton {members : List (K × V)} {key k : K} {value v : V} :
    LastValue (members ++ [(key, value)]) k v ↔
      (k = key ∧ v = value) ∨ (k ≠ key ∧ LastValue members k v) := by
  constructor
  · rintro ⟨front, back, hsplit, hback⟩
    induction back using List.reverseRecOn with
    | nil =>
      rcases (List.append_singleton_inj.mp hsplit).2 with h
      exact .inl ⟨(congrArg Prod.fst h).symm, (congrArg Prod.snd h).symm⟩
    | append_singleton back last _ =>
      rw [← List.cons_append, ← List.append_assoc] at hsplit
      rcases List.append_singleton_inj.mp hsplit with ⟨hmembers, hlast⟩
      refine .inr ⟨?_, front, back, hmembers, fun member hmem => hback member (by simp [hmem])⟩
      have hne := hback last (by simp)
      rw [← hlast] at hne
      exact hne.symm
  · rintro (⟨rfl, rfl⟩ | ⟨hne, front, back, rfl, hback⟩)
    · exact ⟨members, [], rfl, by simp⟩
    · refine ⟨front, back ++ [(key, value)], by simp, fun member hmem => ?_⟩
      rcases List.mem_append.mp hmem with hmem | hmem
      · exact hback member hmem
      · rw [List.mem_singleton.mp hmem]
        exact hne.symm

/-- Inserting the members in order builds the map of their last values. -/
lemma lastWins_foldl (members : List (K × V)) :
    LastWins members
      (members.foldl (fun entries member => insertEntry member.1 member.2 entries) []) := by
  induction members using List.reverseRecOn with
  | nil =>
    refine ⟨List.Pairwise.nil, fun key value => ?_⟩
    simp [LastValue]
  | append_singleton members member ih =>
    rw [List.foldl_append]
    refine ⟨ih.sorted.insertEntry _ _, fun key value => ?_⟩
    rw [List.foldl_cons, List.foldl_nil, mem_insertEntry ih.sorted, ih.mem_iff]
    exact lastValue_append_singleton.symm

lemma LastWins.unique {members first second : List (K × V)} (hfirst : LastWins members first)
    (hsecond : LastWins members second) : first = second := by
  have : Std.Irrefl fun a b : K × V => a.1 < b.1 := ⟨fun a => lt_irrefl a.1⟩
  have : Std.Antisymm fun a b : K × V => a.1 < b.1 :=
    ⟨fun a b hab hba => absurd (hab.trans hba) (lt_irrefl a.1)⟩
  refine List.Pairwise.eq_of_mem_iff hfirst.sorted hsecond.sorted fun entry => ?_
  rw [hfirst.mem_iff, hsecond.mem_iff]

/-- A sorted map is the map of its own entries. -/
lemma LastWins.of_sorted {entries : List (K × V)} (h : SortedKeys entries) :
    LastWins entries entries := by
  refine ⟨h, fun key value => ⟨fun hmem => ?_, ?_⟩⟩
  · rcases List.append_of_mem hmem with ⟨front, back, rfl⟩
    refine ⟨front, back, rfl, fun member hmember => ?_⟩
    have hlater := (List.pairwise_cons.mp (List.pairwise_append.mp h).2.1).1
    exact (hlater member hmember).ne'
  · rintro ⟨front, back, rfl, -⟩
    simp

/-! ### Owners of entries -/

section Owners

variable {O E : Type*} {owns : E → O → Prop}

/-- Where every entry has an owner, the owners can be listed in the order of the entries. -/
lemma exists_owners {entries : List E}
    (h : ∀ entry ∈ entries, ∃ owner, owns entry owner) :
    ∃ owners, List.Forall₂ owns entries owners := by
  induction entries with
  | nil => exact ⟨[], .nil⟩
  | cons entry rest ih =>
    rcases h entry List.mem_cons_self with ⟨owner, howner⟩
    rcases ih fun other hmem => h other (List.mem_cons_of_mem _ hmem) with ⟨owners, howners⟩
    exact ⟨owner :: owners, .cons howner howners⟩

lemma exists_owner_of_mem {entries : List E}
    {owners : List O} (h : List.Forall₂ owns entries owners) {entry : E}
    (hmem : entry ∈ entries) : ∃ owner ∈ owners, owns entry owner := by
  induction h with
  | nil => simp at hmem
  | cons howner _ ih =>
    rcases List.mem_cons.mp hmem with rfl | hmem
    · exact ⟨_, List.mem_cons_self, howner⟩
    · rcases ih hmem with ⟨owner, hmem, howner⟩
      exact ⟨owner, List.mem_cons_of_mem _ hmem, howner⟩

lemma exists_entry_of_mem {entries : List E}
    {owners : List O} (h : List.Forall₂ owns entries owners) {owner : O}
    (hmem : owner ∈ owners) : ∃ entry ∈ entries, owns entry owner :=
  exists_owner_of_mem h.flip hmem

lemma owns_head {entries : List E} {owners : List O} (h : List.Forall₂ owns entries owners)
    {entry : E} (hentry : entry ∈ entries.head?) {owner : O} (howner : owner ∈ owners.head?) :
    owns entry owner := by
  rcases h with _ | ⟨hhead, _⟩
  · cases hentry
  · rw [List.head?_cons, Option.mem_some_iff] at hentry howner
    exact hentry ▸ howner ▸ hhead

/-- Owners are related as their entries are. -/
lemma pairwise_owners {P : E → E → Prop}
    {Q : O → O → Prop} {entries : List E} {owners : List O}
    (h : List.Forall₂ owns entries owners) (hP : entries.Pairwise P)
    (hstep : ∀ a b x y, P a b → owns a x → owns b y → Q x y) : owners.Pairwise Q := by
  induction h with
  | nil => exact .nil
  | @cons entry owner entries owners howner howners ih =>
    rcases List.pairwise_cons.mp hP with ⟨hhead, hrest⟩
    refine List.pairwise_cons.mpr ⟨fun other hmem => ?_, ih hrest⟩
    rcases exists_entry_of_mem howners hmem with ⟨entry', hmem', howner'⟩
    exact hstep _ _ _ _ (hhead entry' hmem') howner howner'

end Owners

end DoomFishUtils.Library
