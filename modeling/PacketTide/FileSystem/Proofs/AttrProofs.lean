import PacketTide.FileSystem.Proofs.ReplyProofs

/-!
# What calls do to metadata

Setting the metadata of an object changes that of no other, removing one touches its directory, and a
directory is moved with all metadata in it.
-/

namespace FileSystem

open Node

namespace FS

variable {fs t : FS} {p q : Loc} {path : Path} {s : Shape}

theorem attrAt_setAttr (g : Attr → Attr) (hp : p ≠ []) (hv : fs.view p ≠ none) :
    FS.attrAt { fs with root := fs.root.alter (Option.map (Node.mapAttr g)) p } =
      Function.update fs.attrAt p ((fs.attrAt p).map g) :=
  attrAt_alter_attr g hp (view_dropLast_of_ne_none hp hv)

/-- Touching a place changes the metadata of no other. -/
theorem attrAt_touch_of_ne (hp : fs.view p = some .dir) (hq : q ≠ p) :
    (fs.touch p).attrAt q = fs.attrAt q := by
  by_cases hnil : p = []
  · subst hnil
    obtain ⟨n, q, rfl⟩ := List.exists_cons_of_ne_nil hq
    obtain ⟨a, cs, hroot⟩ := get_of_view_dir hp
    rw [Node.get_nil, Option.some.injEq] at hroot
    simp only [touch, attrAt, hroot]
    rfl
  · have hupdate := @attrAt_setAttr fs _ (fun a => { a with modified := fs.now }) hnil
        (by rw [hp]; exact Option.some_ne_none _)
    exact (congrFun hupdate q).trans (Function.update_of_ne hq _ _)

/-- What is put at a place has its own metadata. -/
theorem attrAt_put (hp : p ≠ []) (hd : fs.view p.dropLast = some .dir) (node : Node) :
    (fs.put p node).attrAt p = node.attr? := by
  refine (Node.attrAt_alter hp hd p).trans ?_
  rw [if_pos (List.prefix_refl _), List.drop_length]
  rfl

theorem not_prefix_dropLast (hp : p ≠ []) : ¬p <+: p.dropLast := by
  intro hpre
  have hle := hpre.length_le
  have hpos := List.length_pos_of_ne_nil hp
  rw [List.length_dropLast] at hle
  omega

end FS

end FileSystem
