import Zth.List.SortedList

/-!
# The sorted list is balanced

Insertion and deletion keep the tree levelled. Each is a recursion that repairs
the tree on the way back, so what has to be known of the recursive call is how
the levels of the subtree may have changed: `Grown` and `Shrunk`. The repair of
one node then is a case distinction on the levels that are left behind, and
nothing of it depends on the order of the elements.
-/

namespace Zth

namespace SortedList

open LevelTree

variable {A : Type*}

theorem skew_of_level_ne {l r : LevelTree A} {v : ℕ} {e : A} (h : l.level ≠ v) :
    skew (node l v e r) = node l v e r := by
  cases l with
  | nil => rfl
  | node ll lv le lr => exact if_neg h

theorem skew_of_level_eq (a c r : LevelTree A) (v : ℕ) (b e : A) :
    skew (node (node a v b c) v e r) = node a v b (node c v e r) :=
  if_pos rfl

theorem split_of_level_ne {l r : LevelTree A} {v : ℕ} {e : A} (h : r.right.level ≠ v) :
    split (node l v e r) = some (node l v e r) := by
  match r, h with
  | nil, _ => rfl
  | node _ _ _ nil, _ => rfl
  | node _ _ _ (node _ _ _ _), h => exact if_neg (Ne.symm h)

theorem split_of_level_eq {l b c : LevelTree A} {v rv : ℕ} {e f : A} (h : c.level = v)
    (hv : 0 < v) (hrv : rv < 255) :
    split (node l v e (node b rv f c)) = some (node (node l v e b) (rv + 1) f c) := by
  cases c with
  | nil =>
      rw [level_nil] at h
      omega
  | node cl w ce cr =>
      rw [level_node] at h
      rw [split, if_pos h.symm, if_pos hrv]

/-- A levelled tree needs no rotation. -/
theorem skew_of_levelled {t : LevelTree A} (h : t.Levelled) : skew t = t := by
  cases t with
  | nil => rfl
  | node l v e r =>
      obtain ⟨-, -, hl, -, -⟩ := h
      exact skew_of_level_ne (by omega)

theorem split_of_levelled {t : LevelTree A} (h : t.Levelled) : split t = some t := by
  cases t with
  | nil => rfl
  | node l v e r =>
      obtain ⟨-, -, -, -, hrr⟩ := h
      exact split_of_level_ne (Nat.ne_of_lt hrr)

theorem mapRight_skew_of_levelled {t : LevelTree A} (h : t.Levelled) :
    t.mapRight skew = t := by
  cases t with
  | nil => rfl
  | node l v e r => rw [mapRight, skew_of_levelled h.2.1]

/-- How an insertion changes a tree: the level of the root stays, or it goes up by
one. It only goes up from a node that shares its level with its right child, to a
node that does not. -/
structure Grown (t t' : LevelTree A) : Prop where
  levelled : t'.Levelled
  level : t'.level = t.level ∨
    (t'.level = t.level + 1 ∧ t.right.level = t.level ∧ t'.right.level < t'.level)

/-- The repair of a node whose left subtree grew. -/
theorem grown_left {l l' r : LevelTree A} {v : ℕ} {e : A}
    (h : (node l v e r).Levelled) (hv : v < 255) (hl : Grown l l') :
    ∃ t', split (skew (node l' v e r)) = some t' ∧ Grown (node l v e r) t' := by
  obtain ⟨-, hr, hlv, hrv, hrr⟩ := h
  rcases hl.level with hlev | ⟨hlev, -, hright⟩
  · refine ⟨node l' v e r, ?_, ⟨hl.levelled, hr, ?_, hrv, hrr⟩, Or.inl rfl⟩
    · rw [skew_of_level_ne (by omega), split_of_level_ne (Nat.ne_of_lt hrr)]
    · rw [hlev]
      exact hlv
  · obtain ⟨a, b, c, rfl, ha, hc, halev, hclev, hcr⟩ :=
      hl.levelled.exists_node (hlev.trans rfl)
    have hclev : c.level = l.level := by
      rw [right_node, level_node] at hright
      omega
    subst hlv
    rw [skew_of_level_eq]
    rcases hrv with hrv | hrv
    · refine ⟨node (node a (l.level + 1) b c) (l.level + 1 + 1) e r, ?_,
        ⟨⟨ha, hc, ?_, ?_, hcr⟩, hr, rfl, ?_, ?_⟩, Or.inr ⟨rfl, hrv, ?_⟩⟩
      · exact split_of_level_eq hrv (Nat.succ_pos _) hv
      · rw [halev]
      · exact Or.inr (by rw [hclev])
      · exact Or.inr (by rw [hrv])
      · omega
      · rw [right_node, level_node]
        omega
    · refine ⟨node a (l.level + 1) b (node c (l.level + 1) e r), ?_,
        ⟨ha, ⟨hc, hr, ?_, Or.inr hrv, hrr⟩, ?_, Or.inl rfl, ?_⟩, Or.inl rfl⟩
      · refine split_of_level_ne ?_
        rw [right_node]
        omega
      · rw [hclev]
      · rw [halev]
      · rw [right_node]
        omega

/-- The repair of a node whose right subtree grew. -/
theorem grown_right {l r r' : LevelTree A} {v : ℕ} {e : A}
    (h : (node l v e r).Levelled) (hv : v < 255) (hr : Grown r r') :
    ∃ t', split (skew (node l v e r')) = some t' ∧ Grown (node l v e r) t' := by
  obtain ⟨hl, -, hlv, hrv, hrr⟩ := h
  have hle := hr.levelled.level_right_le
  rw [skew_of_level_ne (by omega)]
  -- Without two right children at level `v` in a row, there is nothing to repair.
  by_cases hsplit : r'.right.level = v
  · have hrlev : r.level = v ∧ r'.level = v := by
      rcases hr.level with h' | ⟨h', h'', h'''⟩ <;> omega
    obtain ⟨b, f, c, rfl, hb, hc, hblev, -, hcr⟩ :=
      hr.levelled.exists_node (hrlev.2.trans hlv.symm)
    rw [right_node] at hsplit
    rw [hlv]
    refine ⟨node (node l v e b) (v + 1) f c, ?_,
      ⟨⟨hl, hb, hlv, Or.inr (by omega), ?_⟩, hc, rfl, Or.inr (by omega), by omega⟩,
      Or.inr ⟨rfl, hrlev.1, ?_⟩⟩
    · exact split_of_level_eq hsplit (by omega) hv
    · have := hb.level_right_le
      omega
    · rw [right_node, level_node]
      omega
  · refine ⟨node l v e r', split_of_level_ne hsplit,
      ⟨hl, hr.levelled, hlv, ?_, ?_⟩, Or.inl rfl⟩
    · rcases hr.level with h' | ⟨h', h'', h'''⟩ <;> omega
    · rcases hr.level with h' | ⟨h', h'', h'''⟩ <;> omega

/-- Insertion below a node, with whatever order. -/
theorem grown_insert_ [LinearOrder A] (comp : A → A → Bool) (x : A) (head : Option A)
    {t : LevelTree A} (h : t.Levelled) (hv : t.level < 255) :
    ∃ t' head', insert_ comp x t head = some (t', head') ∧ Grown t t' := by
  induction t with
  | nil =>
      refine ⟨node nil 1 x nil, head, rfl, ?_, Or.inr ⟨rfl, rfl, ?_⟩⟩
      · exact ⟨trivial, trivial, rfl, Or.inr rfl, Nat.zero_lt_one⟩
      · exact Nat.zero_lt_one
  | node l v e r ihl ihr =>
      have hlevels := h
      obtain ⟨hl, hr, hlv, hrv, -⟩ := hlevels
      rw [level_node] at hv
      by_cases hgo : goesLeft comp x e = true
      · obtain ⟨l', head', heq, hgrown⟩ := ihl hl (by omega)
        obtain ⟨t', ht', hgrown'⟩ := grown_left h hv hgrown
        refine ⟨t', headAt head' (node l' v e r), ?_, hgrown'⟩
        simp only [insert_, if_pos hgo, heq, Option.bind_some, ht', Option.map_some]
      · obtain ⟨r', head', heq, hgrown⟩ := ihr hr (by omega)
        obtain ⟨t', ht', hgrown'⟩ := grown_right h hv hgrown
        refine ⟨t', headAt head' (node l v e r'), ?_, hgrown'⟩
        simp only [insert_, if_neg hgo, heq, Option.bind_some, ht', Option.map_some]

/-- How a deletion changes a tree: the level of the root stays, or it goes down by
one. A root that stays does not come to share its level with its right child. -/
structure Shrunk (t t' : LevelTree A) : Prop where
  levelled : t'.Levelled
  level : t'.level = t.level ∨ t'.level + 1 = t.level
  right : t.right.level < t.level → t'.level = t.level → t'.right.level < t'.level

theorem decreaseLevel_of_levelled {t : LevelTree A} (h : t.Levelled)
    (hv : t.level < 255) : decreaseLevel t = t := by
  cases t with
  | nil => rfl
  | node l v e r =>
      obtain ⟨-, -, hlv, hrv, -⟩ := h
      rw [level_node] at hv
      have hmod : (min l.level r.level + 1) % 256 = v := by omega
      unfold decreaseLevel
      simp only [hmod, if_neg (Nat.lt_irrefl v)]

/-- A node that is two levels above its left child is lowered, and its right child
follows if it would be above its parent. -/
theorem decreaseLevel_left {l : LevelTree A} {k rv : ℕ} (hl : l.level = k) (hr : k ≤ rv)
    (hk : k + 2 < 255) (rl rr : LevelTree A) (e re : A) :
    decreaseLevel (node l (k + 2) e (node rl rv re rr)) =
      node l (k + 1) e (node rl (if k + 1 < rv then k + 1 else rv) re rr) := by
  have hmod : (min l.level rv + 1) % 256 = k + 1 := by omega
  rw [decreaseLevel, level_node, hmod]
  exact if_pos (Nat.lt_succ_self _)

/-- A node that is two levels above its right child is lowered. -/
theorem decreaseLevel_right {l r : LevelTree A} {k : ℕ} {e : A} (hl : k ≤ l.level)
    (hr : r.level = k) (hk : k + 2 < 255) :
    decreaseLevel (node l (k + 2) e r) = node l (k + 1) e r := by
  have hmod : (min l.level r.level + 1) % 256 = k + 1 := by omega
  unfold decreaseLevel
  simp only [hmod, if_pos (Nat.lt_succ_self (k + 1))]
  cases r with
  | nil => rfl
  | node rl rv re rr =>
      rw [level_node] at hr
      have hrv : ¬ k + 1 < rv := by omega
      simp only [if_neg hrv]

/-- The repair leaves a levelled tree as it is. -/
theorem rebalance_of_levelled {t : LevelTree A} (h : t.Levelled) (hv : t.level < 255) :
    rebalance t = some t := by
  simp only [rebalance, decreaseLevel_of_levelled h hv, skew_of_levelled h,
    mapRight_skew_of_levelled h]
  cases t with
  | nil => rfl
  | node l v e r =>
      rw [mapRight, mapRight_skew_of_levelled h.2.1, split_of_levelled h]
      simp only [Option.bind_some, split_of_levelled h.2.1, Option.map_some]

/-- The left subtree lost a level, and the right child is one level below. -/
theorem rebalance_left_low {l r : LevelTree A} {k : ℕ} {e : A} (hl : l.Levelled)
    (hr : r.Levelled) (hlk : l.level = k) (hrk : r.level = k + 1) (hk : k + 2 < 255) :
    ∃ t', rebalance (node l (k + 2) e r) = some t' ∧ t'.Levelled ∧
      (t'.level = k + 2 ∨ t'.level = k + 1) ∧
      (t'.level = k + 2 → t'.right.level < k + 2) := by
  have hr' := hr
  obtain ⟨rl, re, rr, rfl, hrl, hrr, hrlk, hrrk, hrrr⟩ := hr.exists_node hrk
  have hdec := decreaseLevel_left hlk (Nat.le_succ k) hk rl rr e re
  have hskew : skew (node l (k + 1) e (node rl (k + 1) re rr)) =
      node l (k + 1) e (node rl (k + 1) re rr) := skew_of_level_ne (by omega)
  simp only [rebalance, hdec, if_neg (Nat.lt_irrefl (k + 1)), hskew, mapRight,
    skew_of_levelled hr', skew_of_levelled hrr]
  have hrle := hrl.level_right_le
  rcases hrrk with hrrk | hrrk
  · refine ⟨node (node l (k + 1) e rl) (k + 2) re rr, ?_,
      ⟨⟨hl, hrl, by omega, by omega, by omega⟩, hrr, rfl, by omega, by omega⟩,
      Or.inl rfl, fun _ => ?_⟩
    · rw [split_of_level_eq hrrk (Nat.succ_pos k) (by omega)]
      simp only [Option.bind_some, split_of_levelled hrr, Option.map_some]
    · rw [right_node]
      omega
  · refine ⟨node l (k + 1) e (node rl (k + 1) re rr), ?_,
      ⟨hl, hr', by omega, Or.inl rfl, by rw [right_node]; omega⟩, Or.inr rfl, fun h => ?_⟩
    · rw [split_of_level_ne (by rw [right_node]; omega)]
      simp only [Option.bind_some, split_of_levelled hr', Option.map_some]
    · rw [level_node] at h
      omega

/-- The left subtree lost a level, and the right child is at the level of its parent.
Both are lowered, and the left grandchild of the right child comes in between. -/
theorem rebalance_left_high {l r : LevelTree A} {k : ℕ} {e : A} (hl : l.Levelled)
    (hr : r.Levelled) (hlk : l.level = k) (hrk : r.level = k + 2)
    (hrrk : r.right.level < k + 2) (hk : k + 2 < 255) :
    ∃ t', rebalance (node l (k + 2) e r) = some t' ∧ t'.Levelled ∧ t'.level = k + 2 := by
  obtain ⟨rl, re, rr, rfl, hrl, hrr, hrlk, hrrk', hrrr⟩ := hr.exists_node hrk
  rw [right_node] at hrrk
  have hrrk : rr.level = k + 1 := by omega
  obtain ⟨a, b, c, rfl, ha, hc, hak, hck, hcr⟩ := hrl.exists_node hrlk
  have hdec := decreaseLevel_left hlk (Nat.le_add_right k 2) hk (node a (k + 1) b c) rr e re
  have hskew : skew (node l (k + 1) e (node (node a (k + 1) b c) (k + 1) re rr)) =
      node l (k + 1) e (node (node a (k + 1) b c) (k + 1) re rr) :=
    skew_of_level_ne (by omega)
  have har := ha.level_right_le
  have hleft : (node l (k + 1) e a).Levelled := ⟨hl, ha, by omega, by omega, by omega⟩
  simp only [rebalance, hdec, if_pos (Nat.lt_succ_self (k + 1)), hskew, mapRight,
    skew_of_level_eq]
  rcases hck with hck | hck
  · -- The grandchild shares its level with its right child, which is lifted as well.
    obtain ⟨c₁, d, c₂, rfl, hc₁, hc₂, hc₁k, hc₂k, hc₂r⟩ := hc.exists_node hck
    rw [right_node] at hcr
    have hc₂k : c₂.level = k := by omega
    have hx : (node (node c₁ (k + 1) d c₂) (k + 2) re rr).Levelled :=
      ⟨⟨hc₁, hc₂, by omega, by omega, hc₂r⟩, hrr, rfl, by omega, by omega⟩
    refine ⟨node (node l (k + 1) e a) (k + 2) b (node (node c₁ (k + 1) d c₂) (k + 2) re rr),
      ?_, ⟨hleft, hx, rfl, Or.inl rfl, by rw [right_node]; omega⟩, rfl⟩
    rw [skew_of_level_eq, split_of_level_eq (level_node _ _ _ _) (Nat.succ_pos k) (by omega)]
    simp only [Option.bind_some]
    rw [split_of_level_eq hrrk (Nat.succ_pos k) (by omega), Option.map_some]
  · rw [skew_of_level_ne (by omega),
      split_of_level_eq (level_node _ _ _ _) (Nat.succ_pos k) (by omega)]
    simp only [Option.bind_some]
    have hcr := hc.level_right_le
    by_cases hrrr' : rr.right.level = k + 1
    · obtain ⟨f, g, h, rfl, hf, hh, hfk, -, hhr⟩ := hrr.exists_node hrrk
      rw [right_node] at hrrr'
      have hfr := hf.level_right_le
      have hx : (node (node c (k + 1) re f) (k + 2) g h).Levelled :=
        ⟨⟨hc, hf, by omega, by omega, by omega⟩, hh, rfl, by omega, by omega⟩
      refine ⟨node (node l (k + 1) e a) (k + 2) b (node (node c (k + 1) re f) (k + 2) g h),
        ?_, ⟨hleft, hx, rfl, Or.inl rfl, by rw [right_node]; omega⟩, rfl⟩
      rw [split_of_level_eq hrrr' (Nat.succ_pos k) (by omega), Option.map_some]
    · have hle := hrr.level_right_le
      have hx : (node c (k + 1) re rr).Levelled :=
        ⟨hc, hrr, by omega, by omega, by omega⟩
      refine ⟨node (node l (k + 1) e a) (k + 2) b (node c (k + 1) re rr),
        ?_, ⟨hleft, hx, rfl, Or.inr rfl, by rw [right_node]; omega⟩, rfl⟩
      rw [split_of_levelled hx, Option.map_some]

/-- The right subtree lost a level. The left child is at the level of its parent then,
and is rotated to the right, together with its right child where that is needed. -/
theorem rebalance_right {l r : LevelTree A} {k : ℕ} {e : A} (hl : l.Levelled)
    (hr : r.Levelled) (hlk : l.level = k + 1) (hrk : r.level = k) (hk : k + 2 < 255) :
    ∃ t', rebalance (node l (k + 2) e r) = some t' ∧ t'.Levelled ∧
      (t'.level = k + 2 ∨ t'.level = k + 1) ∧
      (t'.level = k + 2 → t'.right.level < k + 2) := by
  have hdec := decreaseLevel_right (l := l) (e := e) (by omega) hrk hk
  obtain ⟨a, b, c, rfl, ha, hc, hak, hck, hcr⟩ := hl.exists_node hlk
  have hrr := hr.level_right_le
  simp only [rebalance, hdec, skew_of_level_eq, mapRight]
  rcases hck with hck | hck
  · obtain ⟨c₁, d, c₂, rfl, hc₁, hc₂, hc₁k, hc₂k, hc₂r⟩ := hc.exists_node hck
    rw [right_node] at hcr
    have hc₂k : c₂.level = k := by omega
    have hc₁r := hc₁.level_right_le
    have hx : (node c₂ (k + 1) e r).Levelled := ⟨hc₂, hr, by omega, by omega, by omega⟩
    refine ⟨node (node a (k + 1) b c₁) (k + 2) d (node c₂ (k + 1) e r), ?_,
      ⟨⟨ha, hc₁, by omega, by omega, by omega⟩, hx, rfl, Or.inr rfl, ?_⟩, Or.inl rfl,
      fun _ => ?_⟩
    · simp only [skew_of_level_eq, skew_of_levelled hx]
      rw [split_of_level_eq (level_node _ _ _ _) (Nat.succ_pos k) (by omega)]
      simp only [Option.bind_some, split_of_levelled hx, Option.map_some]
    · rw [right_node]
      omega
    · rw [right_node, level_node]
      omega
  · have hx : (node c (k + 1) e r).Levelled := ⟨hc, hr, by omega, by omega, by omega⟩
    refine ⟨node a (k + 1) b (node c (k + 1) e r), ?_,
      ⟨ha, hx, by omega, Or.inl rfl, by rw [right_node]; omega⟩, Or.inr rfl, fun h => ?_⟩
    · simp only [skew_of_levelled hx, skew_of_levelled hr]
      rw [split_of_level_ne (by rw [right_node]; omega)]
      simp only [Option.bind_some, split_of_levelled hx, Option.map_some]
    · rw [level_node] at h
      omega

/-- The repair of a node whose left subtree shrunk. -/
theorem shrunk_left {l l' r : LevelTree A} {v : ℕ} {e : A} (y : A)
    (h : (node l v e r).Levelled) (hv : v < 255) (hl : Shrunk l l') :
    ∃ t', rebalance (node l' v y r) = some t' ∧ Shrunk (node l v e r) t' := by
  obtain ⟨-, hr, hlv, hrv, hrr⟩ := h
  rcases hl.level with hlev | hlev
  · have ht : (node l' v y r).Levelled :=
      ⟨hl.levelled, hr, by omega, hrv, hrr⟩
    exact ⟨_, rebalance_of_levelled ht hv, ht, Or.inl rfl, fun h _ => h⟩
  · obtain rfl : v = l'.level + 2 := by omega
    rcases hrv with hrv | hrv
    · obtain ⟨t', heq, ht', hlevel⟩ :=
        rebalance_left_high (e := y) hl.levelled hr rfl hrv hrr hv
      refine ⟨t', heq, ht', Or.inl hlevel, fun h => ?_⟩
      rw [right_node, level_node] at h
      omega
    · obtain ⟨t', heq, ht', hlevel, hright⟩ :=
        rebalance_left_low (e := y) hl.levelled hr rfl (Nat.add_right_cancel hrv) hv
      refine ⟨t', heq, ht', ?_, fun _ h => ?_⟩
      · rw [level_node]
        omega
      · rw [level_node] at h
        rw [h]
        exact hright h

/-- The repair of a node whose right subtree shrunk. -/
theorem shrunk_right {l r r' : LevelTree A} {v : ℕ} {e : A} (y : A)
    (h : (node l v e r).Levelled) (hv : v < 255) (hr : Shrunk r r') :
    ∃ t', rebalance (node l v y r') = some t' ∧ Shrunk (node l v e r) t' := by
  obtain ⟨hl, -, hlv, hrv, hrr⟩ := h
  have hle := hr.levelled.level_right_le
  by_cases hlow : r'.level + 2 = v
  · subst hlow
    obtain ⟨t', heq, ht', hlevel, hright⟩ :=
      rebalance_right (e := y) hl hr.levelled (by omega) rfl hv
    refine ⟨t', heq, ht', ?_, fun _ h => ?_⟩
    · rw [level_node]
      omega
    · rw [level_node] at h
      rw [h]
      exact hright h
  · have hshrunk := hr.level
    have hright := hr.right
    have ht : (node l v y r').Levelled := by
      refine ⟨hl, hr.levelled, hlv, by omega, ?_⟩
      by_cases hsame : r'.level = v
      · have := hright (by omega) (by omega)
        omega
      · omega
    refine ⟨_, rebalance_of_levelled ht hv, ht, Or.inl rfl, fun h _ => ?_⟩
    rw [right_node, level_node] at h ⊢
    omega

theorem isNull_iff {t : LevelTree A} : isNull t = true ↔ t = nil := by
  cases t with
  | nil => exact iff_of_true rfl rfl
  | node l v e r => exact iff_of_false (by simp [isNull]) (by simp)

theorem toList_ne_nil {t : LevelTree A} (h : isNull t = false) : t.toList ≠ [] := by
  intro hnil
  rw [toList_eq_nil_iff.1 hnil] at h
  cases h

theorem lowest_eq_head? (t : LevelTree A) : lowest t = t.toList.head? := by
  induction t with
  | nil => rfl
  | node l v e r ihl ihr =>
      cases l with
      | nil => rfl
      | node ll lv le lr =>
          have hne : (node ll lv le lr).toList ≠ [] := by simp
          rw [lowest, ihl, toList_node (node ll lv le lr), List.head?_append_of_ne_nil _ hne]
          simp

theorem highest_eq_getLast? (t : LevelTree A) : highest t = t.toList.getLast? := by
  induction t with
  | nil => rfl
  | node l v e r ihl ihr =>
      cases r with
      | nil => simp [highest]
      | node rl rv re rr =>
          have hne : (node rl rv re rr).toList ≠ [] := by simp
          rw [highest, ihr, toList_node l, List.getLast?_append_of_ne_nil _ (by simp),
            List.getLast?_cons_of_ne_nil hne]
          simp

section Delete

variable [LinearOrder A] (comp : A → A → Bool) {x e : A} {l r : LevelTree A} (v : ℕ)

/-- A leaf is deleted. -/
theorem delete_leaf (hl : isNull l = true) (hr : isNull r = true) :
    delete_ comp x (node l v x r) = some nil := by
  rw [delete_, if_pos rfl, hl, hr]
  rfl

/-- Without a left child, the next element takes the place of the one to delete. -/
theorem delete_by_lowest (hl : isNull l = true) (hr : isNull r = false) :
    delete_ comp x (node l v x r) = (lowest r).bind fun y =>
      (delete_ comp y r).bind fun r => rebalance (node l v y r) := by
  rw [delete_, if_pos rfl, hl, hr]
  rfl

/-- With a left child, the previous element takes the place of the one to delete. -/
theorem delete_by_highest (hl : isNull l = false) :
    delete_ comp x (node l v x r) = (highest l).bind fun y =>
      (delete_ comp y l).bind fun l => rebalance (node l v y r) := by
  rw [delete_, if_pos rfl, hl]
  rfl

theorem delete_left (hx : x ≠ e) (hgo : goesLeft comp x e = true) :
    delete_ comp x (node l v e r) =
      (delete_ comp x l).bind fun l => rebalance (node l v e r) := by
  rw [delete_, if_neg hx, if_pos hgo]

theorem delete_right (hx : x ≠ e) (hgo : ¬ goesLeft comp x e = true) :
    delete_ comp x (node l v e r) =
      (delete_ comp x r).bind fun r => rebalance (node l v e r) := by
  rw [delete_, if_neg hx, if_neg hgo]

end Delete

/-- Deletion below a node, with whatever order. -/
theorem shrunk_delete_ [LinearOrder A] (comp : A → A → Bool) (x : A) {t : LevelTree A}
    (h : t.Levelled) (hv : t.level < 255) :
    ∃ t', delete_ comp x t = some t' ∧ Shrunk t t' := by
  induction t generalizing x with
  | nil => exact ⟨nil, rfl, trivial, Or.inl rfl, fun h => absurd h (Nat.lt_irrefl 0)⟩
  | node l v e r ihl ihr =>
      have hlevels := h
      obtain ⟨hl, hr, hlv, hrv, -⟩ := hlevels
      rw [level_node] at hv
      have hdl : ∀ y, ∃ l', delete_ comp y l = some l' ∧ Shrunk l l' :=
        fun y => ihl y hl (by omega)
      have hdr : ∀ y, ∃ r', delete_ comp y r = some r' ∧ Shrunk r r' :=
        fun y => ihr y hr (by omega)
      by_cases hx : x = e
      · subst hx
        cases hnl : isNull l with
        | true =>
            cases hnr : isNull r with
            | true =>
                -- A leaf.
                have hl0 : l.level = 0 := by rw [isNull_iff.1 hnl, level_nil]
                rw [hl0] at hlv
                refine ⟨nil, delete_leaf comp v hnl hnr, trivial, Or.inr hlv,
                  fun _ h => absurd h ?_⟩
                rw [level_nil, level_node]
                omega
            | false =>
                obtain ⟨y, hy⟩ : ∃ y, lowest r = some y := by
                  rw [lowest_eq_head?]
                  exact ⟨_, List.head?_eq_some_head (toList_ne_nil hnr)⟩
                obtain ⟨r', heq, hshrunk⟩ := hdr y
                obtain ⟨t', ht', hshrunk'⟩ := shrunk_right y h hv hshrunk
                refine ⟨t', ?_, hshrunk'⟩
                rw [delete_by_lowest comp v hnl hnr, hy, Option.bind_some, heq,
                  Option.bind_some, ht']
        | false =>
            obtain ⟨y, hy⟩ : ∃ y, highest l = some y := by
              rw [highest_eq_getLast?]
              exact ⟨_, List.getLast?_eq_some_getLast (toList_ne_nil hnl)⟩
            obtain ⟨l', heq, hshrunk⟩ := hdl y
            obtain ⟨t', ht', hshrunk'⟩ := shrunk_left y h hv hshrunk
            refine ⟨t', ?_, hshrunk'⟩
            rw [delete_by_highest comp v hnl, hy, Option.bind_some, heq, Option.bind_some, ht']
      · by_cases hgo : goesLeft comp x e = true
        · obtain ⟨l', heq, hshrunk⟩ := hdl x
          obtain ⟨t', ht', hshrunk'⟩ := shrunk_left e h hv hshrunk
          refine ⟨t', ?_, hshrunk'⟩
          rw [delete_left comp v hx hgo, heq, Option.bind_some, ht']
        · obtain ⟨r', heq, hshrunk⟩ := hdr x
          obtain ⟨t', ht', hshrunk'⟩ := shrunk_right e h hv hshrunk
          refine ⟨t', ?_, hshrunk'⟩
          rw [delete_right comp v hx hgo, heq, Option.bind_some, ht']

end SortedList

end Zth
