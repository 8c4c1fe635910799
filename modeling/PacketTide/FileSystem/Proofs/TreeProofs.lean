import PacketTide.FileSystem.Tree

/-!
# Lemmas about directory trees

What a place shows after an alteration elsewhere: places that do not lie below the altered one show
what they did before.
-/

namespace FileSystem

namespace Node

variable {t : Node} {p q : Loc} {n m : Name} {f : Option Node → Option Node}

theorem lookup_filter_ne (cs : List (Name × Node)) (n m : Name) :
    (cs.filter fun c => !decide (c.1 = n)).lookup m = if m = n then none else cs.lookup m := by
  induction cs with
  | nil => simp
  | cons c cs ih =>
    obtain ⟨k, v⟩ := c
    by_cases hk : k = n
    · subst hk
      by_cases hm : m = k
      · subst hm; simpa using ih
      · simp [List.lookup_cons, hm, ih, beq_false_of_ne hm]
    · by_cases hm : m = k
      · subst hm; simp [hk]
      · simp [hk, List.lookup_cons, beq_false_of_ne hm, ih]

@[simp] theorem lookup_setChild (cs : List (Name × Node)) (n : Name) (v : Option Node) (m : Name) :
    (setChild cs n v).lookup m = if m = n then v else cs.lookup m := by
  cases v with
  | none => simp [setChild, lookup_filter_ne]
  | some c =>
    by_cases hm : m = n
    · subst hm; simp [setChild]
    · simp [setChild, List.lookup_cons, beq_false_of_ne hm, lookup_filter_ne, hm]

@[simp] theorem get_nil (t : Node) : t.get [] = some t := rfl

theorem get_cons (t : Node) (n : Name) (p : Loc) :
    t.get (n :: p) = (t.children.lookup n).bind fun c => c.get p := rfl

theorem get_append (t : Node) (p q : Loc) : t.get (p ++ q) = (t.get p).bind fun c => c.get q := by
  induction p generalizing t with
  | nil => rfl
  | cons n p ih =>
    simp only [List.cons_append, get_cons]
    cases t.children.lookup n with
    | none => rfl
    | some c => exact ih c

theorem view_eq (t : Node) (p : Loc) : t.view p = (t.get p).map shape := rfl

@[simp] theorem view_nil (t : Node) : t.view [] = some t.shape := rfl

theorem view_cons (t : Node) (n : Name) (p : Loc) :
    t.view (n :: p) = (t.children.lookup n).bind fun c => c.view p := by
  simp only [view, get_cons]
  cases t.children.lookup n <;> rfl

theorem view_append (t : Node) (p q : Loc) :
    t.view (p ++ q) = (t.get p).bind fun c => c.view q := by
  simp only [view, get_append]
  cases t.get p <;> rfl

theorem eq_dir_of_children {t : Node} (h : t.children ≠ []) : ∃ a cs, t = .dir a cs := by
  cases t with
  | dir a cs => exact ⟨a, cs, rfl⟩
  | _ => exact absurd rfl h

theorem eq_dir_of_shape {t : Node} (h : t.shape = .dir) : ∃ a cs, t = .dir a cs := by
  cases t with
  | dir a cs => exact ⟨a, cs, rfl⟩
  | _ => cases h

theorem get_of_view_dir (h : t.view p = some .dir) : ∃ a cs, t.get p = some (.dir a cs) := by
  rw [view_eq, Option.map_eq_some_iff] at h
  obtain ⟨c, hc, hs⟩ := h
  obtain ⟨a, cs, rfl⟩ := eq_dir_of_shape hs
  exact ⟨a, cs, hc⟩

/-- Whatever lies strictly below a place lies in a directory. -/
theorem view_dir_of_below {q : Loc} (hq : q ≠ []) (h : t.view (p ++ q) ≠ none) :
    t.view p = some .dir := by
  obtain ⟨n, q, rfl⟩ := List.exists_cons_of_ne_nil hq
  rw [view_append] at h
  cases hc : t.get p with
  | none => rw [hc] at h; exact absurd rfl h
  | some c =>
    rw [hc] at h
    have hne : c.children ≠ [] := by
      intro he
      exact h (by simp [view_cons, he])
    obtain ⟨a, cs, rfl⟩ := eq_dir_of_children hne
    simp [view_eq, hc, shape]

theorem get_eq_none_iff : t.get p = none ↔ t.view p = none := by
  simp [view_eq]

/-- The names in a directory are those under which something lies. -/
theorem mem_children_iff {a : Attr} {cs : List (Name × Node)} (h : t.get p = some (.dir a cs))
    (n : Name) : n ∈ cs.map Prod.fst ↔ t.view (p ++ [n]) ≠ none := by
  rw [view_append, h]
  simp only [Option.bind_some, view_cons, children]
  clear h
  induction cs with
  | nil => simp
  | cons c cs ih =>
    obtain ⟨k, v⟩ := c
    by_cases hk : n = k
    · subst hk; simp
    · simpa [List.lookup_cons, beq_false_of_ne hk, hk] using ih

/-! ## Alterations -/

/-- What is known of a directory does not depend on what lies in it. -/
def Shallow {β : Type} (g : Node → Option β) : Prop := ∀ a cs cs', g (.dir a cs) = g (.dir a cs')

section Observe

variable {β : Type} {g : Node → Option β}

@[simp] theorem observe_nil (t : Node) : t.observe g [] = g t := rfl

theorem observe_cons (t : Node) (n : Name) (p : Loc) :
    t.observe g (n :: p) = (t.children.lookup n).bind fun c => c.observe g p := by
  simp only [observe, get_cons]
  cases t.children.lookup n <;> rfl

theorem observe_append (t : Node) (p q : Loc) :
    t.observe g (p ++ q) = (t.get p).bind fun c => c.observe g q := by
  simp only [observe, get_append]
  cases t.get p <;> rfl

/-- Alter a place whose parent is a directory: places below it tell what was put there, all others
tell what they did before. -/
theorem observe_alter (hg : Shallow g) (hp : p ≠ []) (hd : t.view p.dropLast = some .dir) (q : Loc) :
    (t.alter f p).observe g q =
      if p <+: q then (f (t.get p)).bind fun c => c.observe g (q.drop p.length)
      else t.observe g q := by
  induction p generalizing t q with
  | nil => exact absurd rfl hp
  | cons n p ih =>
    cases p with
    | nil =>
      obtain ⟨a, cs, rfl⟩ : ∃ a cs, t = .dir a cs := eq_dir_of_shape (by simpa using hd)
      cases q with
      | nil => simpa [alter] using hg a _ cs
      | cons m q =>
        by_cases hm : m = n
        · subst hm
          simp only [alter, observe_cons, children, lookup_setChild, get_cons]
          cases cs.lookup m <;> simp
        · simp [alter, observe_cons, children, hm, Ne.symm hm]
    | cons n' p =>
      rw [List.dropLast_cons_cons] at hd
      obtain ⟨a, cs, rfl⟩ : ∃ a cs, t = .dir a cs := by
        rw [view_cons] at hd
        apply eq_dir_of_children
        intro he
        simp [he] at hd
      rw [view_cons] at hd
      cases hc : cs.lookup n with
      | none => simp [children, hc] at hd
      | some c =>
        simp only [children, hc, Option.bind_some] at hd
        cases q with
        | nil => simpa [alter, hc] using hg a _ cs
        | cons m q =>
          by_cases hm : m = n
          · subst hm
            have hget : (dir a cs).get (m :: n' :: p) = c.get (n' :: p) := by
              rw [get_cons, children, hc]
              rfl
            simp only [alter, observe_cons, children, hc, lookup_setChild, if_true, Option.bind_some,
              hget]
            rw [ih (by simp) hd q]
            have hpre : m :: n' :: p <+: m :: q ↔ n' :: p <+: q := by
              rw [List.cons_prefix_cons]
              exact and_iff_right rfl
            by_cases h : n' :: p <+: q
            · rw [if_pos h, if_pos (hpre.2 h)]
              rfl
            · rw [if_neg h, if_neg (hpre.not.2 h)]
          · simp [alter, observe_cons, children, hm, Ne.symm hm, hc]

end Observe

theorem view_eq_observe (t : Node) (p : Loc) : t.view p = t.observe (fun c => some c.shape) p := by
  rw [view_eq, observe]
  cases t.get p <;> rfl

/-- Alter a place whose parent is a directory: places below it show what was put there, all others
show what they did before. -/
theorem view_alter (hp : p ≠ []) (hd : t.view p.dropLast = some .dir) (q : Loc) :
    (t.alter f p).view q =
      if p <+: q then (f (t.get p)).bind fun c => c.view (q.drop p.length) else t.view q := by
  simp only [view_eq_observe]
  exact observe_alter (fun _ _ _ => rfl) hp hd q

theorem view_mapAttr (g : Attr → Attr) (t : Node) (q : Loc) : (t.mapAttr g).view q = t.view q := by
  cases q with
  | nil => cases t <;> rfl
  | cons n q => cases t <;> rfl

/-- Metadata does not show. -/
theorem view_alter_attr (g : Attr → Attr) (t : Node) (p q : Loc) :
    (t.alter (Option.map (mapAttr g)) p).view q = t.view q := by
  induction p generalizing t q with
  | nil => exact view_mapAttr g t q
  | cons n p ih =>
    cases t with
    | dir a cs =>
      cases q with
      | nil => cases p <;> simp only [alter] <;> [rfl; (split <;> rfl)]
      | cons m q =>
        cases p with
        | nil =>
          by_cases hm : m = n
          · subst hm
            simp only [alter, view_cons, children, lookup_setChild]
            cases cs.lookup m with
            | none => rfl
            | some c => exact view_mapAttr g c q
          · simp [alter, view_cons, children, hm]
        | cons n' p =>
          cases hc : cs.lookup n with
          | none => simp [alter, hc]
          | some c =>
            by_cases hm : m = n
            · subst hm
              simp only [alter, hc, view_cons, children, lookup_setChild, if_true,
                Option.bind_some]
              exact ih c q
            · simp [alter, view_cons, children, hm, hc]
    | _ => rfl

/-! ## Metadata -/

theorem attrAt_append (t : Node) (p q : Loc) :
    t.attrAt (p ++ q) = (t.get p).bind fun c => c.attrAt q := observe_append t p q

/-- Alter a place whose parent is a directory: all places that do not lie below it keep their metadata. -/
theorem attrAt_alter (hp : p ≠ []) (hd : t.view p.dropLast = some .dir) (q : Loc) :
    (t.alter f p).attrAt q =
      if p <+: q then (f (t.get p)).bind fun c => c.attrAt (q.drop p.length) else t.attrAt q :=
  observe_alter (fun _ _ _ => rfl) hp hd q

theorem attrAt_mapAttr (g : Attr → Attr) (t : Node) (q : Loc) :
    (t.mapAttr g).attrAt q = if q = [] then t.attr?.map g else t.attrAt q := by
  cases q with
  | nil => cases t <;> rfl
  | cons n q => cases t <;> rfl

/-- Changing the metadata of an object changes that of no other. -/
theorem attrAt_alter_attr (g : Attr → Attr) (hp : p ≠ []) (hd : t.view p.dropLast = some .dir) :
    (t.alter (Option.map (mapAttr g)) p).attrAt =
      Function.update t.attrAt p ((t.attrAt p).map g) := by
  funext q
  rw [attrAt_alter hp hd]
  by_cases hpre : p <+: q
  · obtain ⟨r, rfl⟩ := hpre
    rw [if_pos (List.prefix_append _ _), List.drop_left]
    rcases r with _ | ⟨n, r⟩
    · rw [List.append_nil, Function.update_self, attrAt, observe]
      cases t.get p with
      | none => rfl
      | some c => exact (attrAt_mapAttr g c []).trans (if_pos rfl)
    · rw [Function.update_of_ne (by simp), attrAt_append]
      cases t.get p with
      | none => rfl
      | some c => exact (attrAt_mapAttr g c (n :: r)).trans (if_neg (List.cons_ne_nil _ _))
  · have hne : q ≠ p := by
      rintro rfl
      exact hpre (List.prefix_refl _)
    rw [if_neg hpre, Function.update_of_ne hne]

end Node

end FileSystem
