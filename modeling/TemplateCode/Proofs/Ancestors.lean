import TemplateCode.Path
import Mathlib.Data.List.DropRight

/-!
# The paths above a path

The parent of a path is spelled with the beginning of it, so it is shorter. A path has as many paths above it
as it takes to get to one without a parent, and `Path.ancestors` lists all of them.

* `Path.unite_segments`: a path is its segments with slashes between them.
* `Path.length_lt_of_parent?`: the parent of a path is shorter.
* `Path.Above`: the paths above a path, `Path.mem_ancestors`: these are listed.
-/

namespace TemplateCode.Path

theorem segments_ne_nil (bytes : List UInt8) : segments bytes ≠ [] :=
  List.splitOn_ne_nil slash bytes

/-- **A path is its segments** with slashes between them. -/
theorem unite_segments (bytes : List UInt8) : unite (segments bytes) = bytes :=
  List.intercalate_splitOn slash

theorem unite_cons {segment : Segment} {rest : List Segment} (h : rest ≠ []) :
    unite (segment :: rest) = segment ++ slash :: unite rest := by
  cases rest with
  | nil => exact absurd rfl h
  | cons next rest => simp [unite, List.intercalate]

/-- A path is the path of its view. -/
theorem path_view (path : Path) : path.view.path = path := by
  obtain ⟨bytes⟩ := path
  have hunite := unite_segments bytes
  unfold view viewOf
  cases hsegments : segments bytes with
  | nil => exact absurd hsegments (segments_ne_nil bytes)
  | cons first rest =>
    rw [hsegments] at hunite
    rw [anchorOf]
    split
    · rename_i hanchor
      split at hanchor
      · cases hanchor
      · exact congrArg Path.mk hunite
    · split
      · rename_i hroot
        obtain ⟨rfl, hrest⟩ := hroot
        rw [unite_cons hrest] at hunite
        exact congrArg Path.mk hunite
      · split
        · rename_i hhere
          subst hhere
          exact congrArg Path.mk hunite
        · simp_all

theorem length_unite (body : List Segment) :
    (unite body).length = body.flatten.length + (body.length - 1) := by
  induction body with
  | nil => rfl
  | cons segment rest ih =>
    cases rest with
    | nil => simp [unite, List.intercalate]
    | cons next rest =>
      rw [unite_cons (by simp), List.length_append, List.length_cons, ih]
      simp only [List.flatten_cons, List.length_append, List.length_cons]
      omega

/-! ## Parents -/

theorem settle_prefix (body : List Segment) : settle body <+: body :=
  List.rdropWhile_prefix isIdle body

/-- What comes last in settled segments is a name, or leads to the parent. -/
theorem isIdle_getLast_settle {body : List Segment} (h : settle body ≠ []) :
    isIdle ((settle body).getLast h) = false :=
  Bool.eq_false_iff.2 (List.rdropWhile_last_not isIdle body h)

theorem getLast_settle {body : List Segment} (h : settle body ≠ []) : (settle body).getLast h ≠ [] := by
  intro hlast
  have hidle := isIdle_getLast_settle h
  rw [hlast] at hidle
  cases hidle

theorem length_unite_lt {body : List Segment} (h : settle body ≠ []) (front : List Segment) :
    (unite (front ++ settle (settle body).dropLast)).length < (unite (front ++ body)).length := by
  obtain ⟨rest, hrest⟩ := settle_prefix body
  obtain ⟨inner, hinner⟩ := settle_prefix (settle body).dropLast
  have hlast := List.length_pos_of_ne_nil (getLast_settle h)
  -- what is left out has at least the bytes of its last segment
  have hbody : body = settle (settle body).dropLast ++ inner ++ [(settle body).getLast h] ++ rest := by
    rw [hinner, List.dropLast_append_getLast, hrest]
  have hsum := congrArg (fun body => body.flatten.length) hbody
  have hlength := congrArg List.length hbody
  simp only [List.flatten_append, List.flatten_cons, List.flatten_nil, List.length_append,
    List.length_nil] at hsum
  simp only [List.length_append, List.length_cons, List.length_nil] at hlength
  rw [length_unite, length_unite]
  simp only [List.flatten_append, List.length_append]
  omega

/-- **The parent of a path is shorter** than the path. -/
theorem length_lt_of_parent? {path parent : Path} (h : path.parent? = some parent) :
    parent.bytes.length < path.bytes.length := by
  have hpath := congrArg (fun path : Path => path.bytes.length) (path_view path)
  unfold parent? at h
  dsimp only at h hpath
  split at h
  · split at h
    · rename_i hanchor
      obtain rfl := Option.some.inj h
      rw [← hpath]
      simp only [View.path, hanchor, length_unite, List.flatten_cons, List.length_append]
      exact Nat.lt_add_right _ (Nat.lt_add_right _ Nat.zero_lt_one)
    · cases h
  · rename_i first rest hsettle
    have hne : settle path.view.body ≠ [] := by simp [hsettle]
    obtain rfl := Option.some.inj h
    rw [← hpath, ← hsettle]
    cases hanchor : path.view.anchor with
    | root => simpa [View.path, hanchor] using length_unite_lt hne []
    | here => simpa [View.path, hanchor] using length_unite_lt hne [here]
    | none => simpa [View.path, hanchor] using length_unite_lt hne []

/-- The paths above a path: its parent, and the paths above that. -/
inductive Above : Path → Path → Prop
  | parent {path above : Path} (h : path.parent? = some above) : Above above path
  | further {path parent above : Path} (h : path.parent? = some parent) (habove : Above above parent) :
    Above above path

theorem Above.length_lt {above path : Path} (h : Above above path) :
    above.bytes.length < path.bytes.length := by
  induction h with
  | parent h => exact length_lt_of_parent? h
  | further h _ ih => exact ih.trans (length_lt_of_parent? h)

theorem Above.ne {above path : Path} (h : Above above path) : above ≠ path := by
  rintro rfl
  exact Nat.lt_irrefl _ h.length_lt

theorem mem_ancestorsWithin {bound : Nat} {path above : Path} (hbound : path.bytes.length < bound) :
    above ∈ ancestorsWithin bound path ↔ above = path ∨ Above above path := by
  induction bound generalizing path with
  | zero => omega
  | succ bound ih =>
    rw [ancestorsWithin, List.mem_cons]
    cases hparent : path.parent? with
    | none =>
      have hnone : ¬Above above path := by
        rintro (h | ⟨h, -⟩) <;> simp [hparent] at h
      simp [hnone]
    | some parent =>
      have hlt := length_lt_of_parent? hparent
      rw [ih (by omega)]
      refine or_congr Iff.rfl ⟨?_, ?_⟩
      · rintro (rfl | habove)
        · exact .parent hparent
        · exact .further hparent habove
      · rintro (h | ⟨h, habove⟩)
        · exact Or.inl (Option.some.inj (h.symm.trans hparent))
        · exact Or.inr (Option.some.inj (h.symm.trans hparent) ▸ habove)

/-- **The ancestors of a path** are the path and the paths above it. -/
theorem mem_ancestors {path above : Path} : above ∈ path.ancestors ↔ above = path ∨ Above above path :=
  mem_ancestorsWithin (Nat.lt_succ_self _)

end TemplateCode.Path
