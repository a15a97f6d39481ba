import Mathlib.Data.List.Basic

/-!
# Lists in groups

The elements of a list belong to groups. An element may name its group, or it belongs
to the group of the element before it; `owners` is the list of the groups they belong
to. The groups of a list are contiguous when no group is taken up again after another
one. Whether that is so can be seen from left to right: an element of a group that was
met before comes directly after an element of that group.
-/

namespace Grouping

variable {κ : Type*}

/-- No other key stands between two occurrences of a key. -/
def Contiguous (ks : List κ) : Prop :=
  ∀ j k, [k, j, k].Sublist ks → j = k

theorem Contiguous.sublist {ks ls : List κ} (h : Contiguous ls) (hs : ks.Sublist ls) :
    Contiguous ks :=
  fun j k hsub => h j k (hsub.trans hs)

theorem Contiguous.nil : Contiguous ([] : List κ) :=
  fun _ _ hsub => by cases hsub

/-- A sublist that ends in an element of an extended list. -/
theorem sublist_concat_iff (xs : List κ) {ks : List κ} {x k : κ} :
    (xs ++ [x]).Sublist (ks ++ [k]) ↔
      (xs ++ [x]).Sublist ks ∨ (x = k ∧ xs.Sublist ks) := by
  have hrev : ∀ as bs : List κ, as.Sublist bs ↔ as.reverse.Sublist bs.reverse :=
    fun _ _ => List.reverse_sublist.symm
  rw [hrev (xs ++ [x]), hrev (xs ++ [x]), hrev xs]
  simp only [List.reverse_append, List.reverse_singleton, List.singleton_append]
  rw [List.cons_sublist_cons']

/-- One more key keeps the groups contiguous when it is new or the last one again. -/
theorem contiguous_concat_iff {ks : List κ} {k : κ} :
    Contiguous (ks ++ [k]) ↔ Contiguous ks ∧ (k ∈ ks → ks.getLast? = some k) := by
  constructor
  · intro h
    refine ⟨h.sublist (List.sublist_append_left ks [k]), fun hk => ?_⟩
    obtain ⟨init, z, rfl⟩ := List.eq_nil_or_concat' ks |>.resolve_left (List.ne_nil_of_mem hk)
    rw [List.getLast?_append_of_ne_nil _ (List.cons_ne_nil z []), List.getLast?_singleton]
    rcases List.mem_append.1 hk with hk | hk
    · have hsub : ([k] ++ [z] ++ [k]).Sublist (init ++ [z] ++ [k]) :=
        ((List.singleton_sublist.2 hk).append (List.Sublist.refl _)).append (List.Sublist.refl _)
      rw [h z k hsub]
    · rw [List.mem_singleton.1 hk]
  · rintro ⟨h, hlast⟩ j k' hsub
    rcases (sublist_concat_iff [k', j]).1 hsub with hin | ⟨rfl, hin⟩
    · exact h j k' hin
    · have hmem : k' ∈ ks := hin.subset List.mem_cons_self
      obtain ⟨init, rfl⟩ := List.getLast?_eq_some_iff.1 (hlast hmem)
      rcases (sublist_concat_iff [k']).1 hin with hinit | ⟨rfl, -⟩
      · exact h j k' (hinit.append (List.Sublist.refl [k']))
      · rfl

/-- The elements of the first group come first. -/
theorem Contiguous.takeWhile_eq_filter {α : Type*} [DecidableEq κ] {f : α → κ} {k : κ}
    {as : List α} (h : Contiguous (k :: as.map f)) :
    as.takeWhile (fun a => f a = k) = as.filter fun a => f a = k := by
  induction as with
  | nil => rfl
  | cons a as ih =>
      by_cases ha : f a = k
      · rw [List.takeWhile_cons_of_pos (by simpa using ha),
          List.filter_cons_of_pos (by simpa using ha)]
        congr 1
        refine ih (h.sublist ?_)
        exact (List.sublist_cons_self (f a) (as.map f)).cons_cons k
      · rw [List.takeWhile_cons_of_neg (by simpa using ha),
          List.filter_cons_of_neg (by simpa using ha)]
        symm
        rw [List.filter_eq_nil_iff]
        intro b hb hbk
        have hbk : f b = k := by simpa using hbk
        refine ha (h (f a) k ?_)
        rw [List.map_cons, ← hbk]
        refine List.Sublist.cons_cons _ (List.Sublist.cons_cons _ ?_)
        exact List.singleton_sublist.2 (List.mem_map_of_mem hb)

/-- The group of each element, where `p` is the group of the element before the list. -/
def owners : Option κ → List (Option κ) → List (Option κ)
  | _, [] => []
  | p, o :: os => (o <|> p) :: owners (o <|> p) os

/-- The group of the last element. -/
def lastOwner (p : Option κ) (os : List (Option κ)) : Option κ :=
  os.foldl (fun p o => o <|> p) p

@[simp] theorem owners_nil (p : Option κ) : owners p [] = [] := rfl

@[simp] theorem owners_cons (p o : Option κ) (os : List (Option κ)) :
    owners p (o :: os) = (o <|> p) :: owners (o <|> p) os := rfl

@[simp] theorem length_owners (p : Option κ) (os : List (Option κ)) :
    (owners p os).length = os.length := by
  induction os generalizing p with
  | nil => rfl
  | cons o os ih => simp [ih]

theorem lastOwner_concat (p : Option κ) (os : List (Option κ)) (o : Option κ) :
    lastOwner p (os ++ [o]) = (o <|> lastOwner p os) := by
  simp [lastOwner]

theorem owners_append (p : Option κ) (os os' : List (Option κ)) :
    owners p (os ++ os') = owners p os ++ owners (lastOwner p os) os' := by
  induction os generalizing p with
  | nil => rfl
  | cons o os ih => simp [ih, lastOwner]

theorem getLast?_owners (p o : Option κ) (os : List (Option κ)) :
    (owners p (o :: os)).getLast? = some (lastOwner p (o :: os)) := by
  induction os generalizing p o with
  | nil => rfl
  | cons o' os ih =>
      rw [owners_cons, List.getLast?_cons, ih]
      rfl

theorem mem_owners_of_mem {k : κ} {os : List (Option κ)} (p : Option κ) (h : some k ∈ os) :
    some k ∈ owners p os := by
  induction os generalizing p with
  | nil => cases h
  | cons o os ih =>
      rcases List.mem_cons.1 h with rfl | h
      · exact List.mem_cons_self
      · exact List.mem_cons_of_mem _ (ih _ h)

/-- A group is named, or it is the one that is open before the list. -/
theorem mem_of_mem_owners {k : κ} {os : List (Option κ)} {p : Option κ}
    (h : some k ∈ owners p os) : some k ∈ os ∨ p = some k := by
  induction os generalizing p with
  | nil => cases h
  | cons o os ih =>
      have hhead : some k = (o <|> p) → some k ∈ o :: os ∨ p = some k := by
        cases o with
        | none => exact fun h => Or.inr h.symm
        | some a => exact fun h => Or.inl (h ▸ List.mem_cons_self)
      rcases List.mem_cons.1 h with h | h
      · exact hhead h
      · rcases ih h with h | h
        · exact Or.inl (List.mem_cons_of_mem o h)
        · exact hhead h.symm

theorem mem_owners_iff {k : κ} {os : List (Option κ)} :
    some k ∈ owners none os ↔ some k ∈ os := by
  refine ⟨fun h => ?_, mem_owners_of_mem none⟩
  rcases mem_of_mem_owners h with h | h
  · exact h
  · cases h

/-- The last group is one that is named. -/
theorem mem_of_lastOwner {k : κ} {os : List (Option κ)} (h : lastOwner none os = some k) :
    some k ∈ os := by
  cases os with
  | nil => cases h
  | cons o os =>
      refine mem_owners_iff.1 (List.mem_of_getLast? ?_)
      rw [getLast?_owners, h]

/-- Where an element names its group, that group is new or still open. -/
theorem contiguous_owners_concat_iff {os : List (Option κ)} (o : Option κ)
    (h : Contiguous (owners none os)) :
    Contiguous (owners none (os ++ [o])) ↔ (o ≠ none → o ≠ lastOwner none os → o ∉ os) := by
  have hlast : os ≠ [] → (owners none os).getLast? = some (lastOwner none os) := by
    intro hne
    obtain ⟨a, as, rfl⟩ := List.exists_cons_of_ne_nil hne
    exact getLast?_owners none a as
  rw [owners_append, owners_cons, owners_nil, contiguous_concat_iff]
  cases o with
  | none =>
      refine iff_of_true ⟨h, fun hmem => ?_⟩ fun hne => absurd rfl hne
      refine hlast ?_
      rintro rfl
      cases hmem
  | some k =>
      refine ⟨fun hk _ hne hmem => ?_, fun hk => ⟨h, fun hmem => ?_⟩⟩
      · have heq := hk.2 (mem_owners_of_mem none hmem)
        rw [hlast (List.ne_nil_of_mem hmem)] at heq
        exact hne (Option.some.inj heq).symm
      · have hmem : some k ∈ os := mem_owners_iff.1 hmem
        rw [hlast (List.ne_nil_of_mem hmem)]
        by_contra hne
        exact hk (Option.some_ne_none k) (fun heq => hne (congrArg some heq.symm)) hmem

/-- An element of a leading group stands in the list, and all that stand before it are in that
group. -/
theorem exists_of_mem_takeWhile {α : Type*} {p : α → Bool} {xs : List α} {a : α}
    (h : a ∈ xs.takeWhile p) :
    ∃ n : ℕ, xs[n]? = some a ∧ ∀ (k : ℕ) b, k ≤ n → xs[k]? = some b → p b = true := by
  induction xs with
  | nil => cases h
  | cons x xs ih =>
      cases hx : p x with
      | false =>
          rw [List.takeWhile_cons_of_neg (by simp [hx])] at h
          cases h
      | true =>
          have hzero : ∀ b, (x :: xs)[0]? = some b → p b = true := by
            intro b hb
            rw [← Option.some.inj hb]
            exact hx
          rw [List.takeWhile_cons_of_pos hx] at h
          rcases List.mem_cons.1 h with rfl | h
          · refine ⟨0, rfl, ?_⟩
            intro k b hk hb
            rw [Nat.le_zero.1 hk] at hb
            exact hzero b hb
          · obtain ⟨n, hn, hall⟩ := ih h
            refine ⟨n + 1, hn, ?_⟩
            intro k b hk hb
            cases k with
            | zero => exact hzero b hb
            | succ k => exact hall k b (Nat.le_of_succ_le_succ hk) hb

end Grouping
