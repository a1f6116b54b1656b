import TemplateCode.Disk
import TemplateCode.Proofs.Ancestors
import Mathlib.Data.List.Basic
import Mathlib.Data.List.TakeWhile

/-!
# Changes to a file system

A file system is changed in one way only: something is put at a location. Where a file is written there was no
directory before, and where a directory is made there was nothing. So whatever a path led to before, it leads
to afterwards, and the path that was asked for leads to what was put there.

* `Disk.Grows`: directories stay directories, and what is there stays there, `Disk.Grows.resolve`: then paths
  lead where they led before.
* `Disk.Opens`: where a file can be opened, `Disk.written_write`: the ways in which writing a file may end.
* `Disk.exists_of_createDirectory`: what making a directory does.
* `Disk.Made`: nothing is new but directories that some of given paths lead to.
* `Disk.made_createDirectories`: what making a directory and those above it does, whether it succeeds or not.
-/

namespace TemplateCode

namespace Disk

/-! ## Putting something at a location -/

theorem lookup_filter_ne {α β : Type} [BEq α] [LawfulBEq α] [DecidableEq α] {key other : α} (h : other ≠ key)
    (entries : List (α × β)) :
    (entries.filter fun entry => entry.1 ≠ key).lookup other = entries.lookup other := by
  induction entries with
  | nil => rfl
  | cons entry entries ih =>
    obtain ⟨found, value⟩ := entry
    by_cases hfound : found = key
    · have hother : (other == found) = false := beq_eq_false_iff_ne.2 (hfound ▸ h)
      rw [List.filter_cons_of_neg (by simpa using hfound), List.lookup_cons, hother, ih]
    · rw [List.filter_cons_of_pos (by simpa using hfound), List.lookup_cons, List.lookup_cons, ih]

variable {disk later : Disk} {here location : Location} {path : Path}

theorem lookup?_put (disk : Disk) (h : location ≠ []) (entry : Entry) (other : Location) :
    Disk.lookup? (disk.put location entry) other =
      if other = location then some entry else disk.lookup? other := by
  by_cases hother : other = location
  · subst hother
    rw [if_pos rfl, lookup?, if_neg h, put, List.lookup_cons_self]
  · have hne : (other == location) = false := beq_eq_false_iff_ne.2 hother
    have hlookup : (disk.put location entry).entries.lookup other = disk.entries.lookup other := by
      rw [put, List.lookup_cons, hne]
      exact lookup_filter_ne hother disk.entries
    rw [if_neg hother, lookup?, lookup?, hlookup]

/-! ## Following segments -/

theorem walk_cons (disk : Disk) (here : Location) (segment : Segment) (segments : List Segment) :
    disk.walk here (segment :: segments) =
      disk.walk here [segment] >>= fun next => disk.walk next segments := by
  simp only [Disk.walk]
  split
  · rfl
  · split
    · rfl
    · split
      · rfl
      · split <;> rfl

theorem walk_append {segments more : List Segment} (h : disk.walk here segments = .ok location) :
    disk.walk here (segments ++ more) = disk.walk location more := by
  induction segments generalizing here with
  | nil =>
    obtain rfl : here = location := Except.ok.inj h
    rfl
  | cons segment segments ih =>
    rw [walk_cons] at h
    rw [List.cons_append, walk_cons]
    cases hstep : disk.walk here [segment] with
    | error stray =>
      rw [hstep] at h
      cases h
    | ok next =>
      rw [hstep] at h
      exact ih h

/-- A name leads to what has that name in a directory. -/
theorem walk_name {name : Segment} {more : List Segment} (hhere : disk.isDirectoryAt here = true)
    (hname : isName name = true) (hpresent : (disk.lookup? (here ++ [name])).isSome = true) :
    disk.walk here (name :: more) = disk.walk (here ++ [name]) more := by
  simp only [isName, Bool.and_eq_true, Bool.not_eq_true', decide_eq_true_eq] at hname
  obtain ⟨⟨hidle, hparent⟩, -⟩ := hname
  rw [Disk.walk]
  simp [hhere, hidle, hparent, hpresent]

/-- Empty segments stay where they are. -/
theorem walk_blank {blanks : List Segment} (hblank : ∀ segment ∈ blanks, segment = [])
    (hhere : disk.isDirectoryAt here = true) : disk.walk here blanks = .ok here := by
  induction blanks with
  | nil => rfl
  | cons segment blanks ih =>
    obtain ⟨rfl, hblanks⟩ := List.forall_mem_cons.1 hblank
    rw [Disk.walk]
    simp [hhere, Path.isIdle, ih hblanks]

theorem target_eq_ok {start directory : Location} {segments : List Segment} {name : Segment}
    (h : disk.target start segments = .ok (directory, name)) (hname : isName name = true) :
    ∃ front, segments = front ++ [name] ∧ disk.walk start front = .ok directory ∧
      disk.isDirectoryAt directory = true := by
  unfold target at h
  cases hwalk : disk.walk start segments.dropLast with
  | error stray => simp [hwalk, bind, Except.bind] at h
  | ok found =>
    simp only [hwalk, bind, Except.bind] at h
    split at h
    · rename_i hdirectory
      obtain ⟨rfl, hlast⟩ := Prod.mk.inj (Except.ok.inj h)
      cases hsegment : segments.getLast? with
      | none =>
        -- an empty segment is no name
        rw [hsegment, Option.getD_none] at hlast
        rw [← hlast] at hname
        cases hname
      | some segment =>
        rw [hsegment, Option.getD_some] at hlast
        subst hlast
        exact ⟨segments.dropLast, (List.dropLast_append_getLast? segment hsegment).symm, hwalk, hdirectory⟩
    · cases h

/-! ## Paths that still lead somewhere -/

/-- Directories stay directories, and what is there stays there. -/
structure Grows (disk later : Disk) : Prop where
  directory : ∀ location, disk.isDirectoryAt location = true → later.isDirectoryAt location = true
  present : ∀ location, (disk.lookup? location).isSome = true → (later.lookup? location).isSome = true

theorem Grows.refl (disk : Disk) : disk.Grows disk :=
  ⟨fun _ => id, fun _ => id⟩

theorem grows_put {entry : Entry} (h : location ≠ [])
    (hentry : entry.isDirectory = true ∨ disk.isDirectoryAt location = false) :
    disk.Grows (disk.put location entry) where
  directory other hother := by
    rw [isDirectoryAt, lookup?_put disk h]
    split
    · rename_i heq
      subst heq
      rcases hentry with hentry | hentry
      · simpa using hentry
      · rw [hentry] at hother
        cases hother
    · exact hother
  present other hother := by
    rw [lookup?_put disk h]
    split
    · rfl
    · exact hother

theorem Grows.walk_singleton (h : disk.Grows later) {segment : Segment}
    (hwalk : disk.walk here [segment] = .ok location) : later.walk here [segment] = .ok location := by
  simp only [Disk.walk] at hwalk ⊢
  cases hdirectory : disk.isDirectoryAt here with
  | false => simp [hdirectory] at hwalk
  | true =>
    simp only [hdirectory, h.directory here hdirectory, Bool.not_true, Bool.false_eq_true, if_false] at hwalk ⊢
    cases hnext : (disk.lookup? (here ++ [segment])).isSome with
    | true =>
      rw [hnext] at hwalk
      rw [h.present _ hnext]
      exact hwalk
    | false =>
      -- a name that leads nowhere is not followed
      rw [hnext] at hwalk
      split at hwalk
      · rename_i hidle
        rwa [if_pos hidle]
      · rename_i hidle
        rw [if_neg hidle]
        split at hwalk
        · rename_i hparent
          rwa [if_pos hparent]
        · cases hwalk

theorem Grows.walk (h : disk.Grows later) {segments : List Segment}
    (hwalk : disk.walk here segments = .ok location) : later.walk here segments = .ok location := by
  induction segments generalizing here with
  | nil => exact hwalk
  | cons segment segments ih =>
    rw [walk_cons] at hwalk ⊢
    cases hstep : disk.walk here [segment] with
    | error stray =>
      rw [hstep] at hwalk
      cases hwalk
    | ok next =>
      rw [hstep] at hwalk
      rw [h.walk_singleton hstep]
      exact ih hwalk

/-- **Paths lead where they led before.** -/
theorem Grows.resolve (h : disk.Grows later) (hresolve : disk.resolve here path = .ok location) :
    later.resolve here path = .ok location := by
  unfold Disk.resolve at hresolve ⊢
  split at hresolve
  · rename_i husable
    rw [if_pos husable]
    exact h.walk hresolve
  · cases hresolve

/-- **A name in a directory** is where a path with that name leads, once something is there: empty segments
after the name stay at a directory. -/
theorem Grows.walk_to (h : disk.Grows later) {start directory : Location} {front blanks : List Segment}
    {name : Segment} (hwalk : disk.walk start front = .ok directory)
    (hdirectory : disk.isDirectoryAt directory = true) (hname : isName name = true)
    (hpresent : (later.lookup? (directory ++ [name])).isSome = true)
    (hblank : ∀ segment ∈ blanks, segment = [])
    (hentry : later.isDirectoryAt (directory ++ [name]) = true ∨ blanks = []) :
    later.walk start (front ++ name :: blanks) = .ok (directory ++ [name]) := by
  rw [walk_append (h.walk hwalk), walk_name (h.directory directory hdirectory) hname hpresent]
  rcases hentry with hentry | rfl
  · exact walk_blank hblank hentry
  · rfl

/-! ## Writing a file -/

theorem put_put (disk : Disk) (location : Location) (entry entry' : Entry) :
    (disk.put location entry).put location entry' = disk.put location entry' := by
  simp [put]

/-- What was in a file before it is filled does not matter. -/
theorem fill_fill (disk : Disk) (h : location ≠ []) (content content' : ByteArray) :
    (disk.fill location content).fill location content' = disk.fill location content' := by
  have hentry : Entry.fill content' (some (Entry.fill content (disk.lookup? location))) =
      Entry.fill content' (disk.lookup? location) := by
    rcases disk.lookup? location with _ | _ | _ | _ <;> rfl
  unfold fill
  rw [put_put, lookup?_put disk h, if_pos rfl, hentry]

/-- A file can be opened by a path: there is no directory at the location, and that is where the path leads as
soon as something is there. -/
structure Opens (disk : Disk) (here : Location) (path : Path) (location : Location) : Prop where
  ne_nil : location ≠ []
  free : disk.isDirectoryAt location = false
  leads : ∀ later, disk.Grows later → (later.lookup? location).isSome = true →
    later.resolve here path = .ok location

theorem opens_of_openFile {opened : Disk} (h : disk.openFile here path = some (location, opened)) :
    disk.Opens here path location ∧ opened = disk.fill location .empty := by
  unfold openFile at h
  split at h
  · rename_i husable
    dsimp only at h
    split at h
    · rename_i directory name htarget
      split at h
      · rename_i hfree
        obtain ⟨hname, hfree⟩ := Bool.and_eq_true_iff.1 hfree
        obtain ⟨front, hsegments, hwalk, hdirectory⟩ := target_eq_ok htarget hname
        obtain ⟨rfl, rfl⟩ := Prod.mk.inj (Option.some.inj h)
        refine ⟨⟨by simp, by simpa using hfree, fun later hgrows hpresent => ?_⟩, rfl⟩
        rw [Disk.resolve, if_pos husable]
        dsimp only
        rw [hsegments]
        exact hgrows.walk_to hwalk hdirectory hname hpresent nofun (Or.inr rfl)
      · cases h
    · cases h
  · cases h

namespace Opens

variable {content : ByteArray}

theorem lookup?_fill (h : disk.Opens here path location) (content : ByteArray) (other : Location) :
    (disk.fill location content).lookup? other =
      if other = location then some (Entry.fill content (disk.lookup? location)) else disk.lookup? other :=
  lookup?_put disk h.ne_nil _ other

theorem grows (h : disk.Opens here path location) (content : ByteArray) :
    disk.Grows (disk.fill location content) :=
  grows_put h.ne_nil (Or.inr h.free)

theorem resolve_fill (h : disk.Opens here path location) (content : ByteArray) :
    (disk.fill location content).resolve here path = .ok location :=
  h.leads _ (h.grows content) (by rw [h.lookup?_fill, if_pos rfl]; rfl)

/-- A device stays what it is. -/
theorem lookup?_fill_of_sink (h : disk.Opens here path location) (hsink : disk.lookup? location = some .sink)
    (content : ByteArray) (other : Location) :
    (disk.fill location content).lookup? other = disk.lookup? other := by
  rw [h.lookup?_fill]
  split
  · rename_i hother
    rw [hother, hsink]
    rfl
  · rfl

/-- Anything else is a file that holds what was put into it. -/
theorem lookup?_fill_self (h : disk.Opens here path location) (hsink : disk.lookup? location ≠ some .sink)
    (content : ByteArray) : (disk.fill location content).lookup? location = some (.file content) := by
  rw [h.lookup?_fill, if_pos rfl]
  rcases hentry : disk.lookup? location with _ | _ | _ | _
  · rfl
  · rfl
  · rfl
  · exact absurd hentry hsink

theorem read_fill (h : disk.Opens here path location) (hsink : disk.lookup? location ≠ some .sink)
    (content : ByteArray) : (disk.fill location content).read here path = some content := by
  rw [read, find?, h.resolve_fill]
  dsimp only
  rw [h.lookup?_fill_self hsink]
  rfl

/-- A device is found by the path that leads to it. -/
theorem find?_of_sink (h : disk.Opens here path location) (hsink : disk.lookup? location = some .sink) :
    disk.find? here path = some .sink := by
  rw [find?, h.leads disk (.refl disk) (by rw [hsink]; rfl)]
  exact hsink

end Opens

/-- How writing a file may end: it cannot be opened, it gets to the end, or it stops short. -/
inductive Written (disk : Disk) (here : Location) (path : Path) (content : ByteArray) : Bool × Disk → Prop
  | unopened : Written disk here path content (false, disk)
  | complete {location : Location} (hopens : disk.Opens here path location) :
    Written disk here path content (true, disk.fill location content)
  | short {location : Location} {limit : Nat} (hopens : disk.Opens here path location)
    (hlimit : disk.limits.lookup location = some limit) (hshort : limit < content.size) :
    Written disk here path content (false, disk.fill location (content.extract 0 limit))

/-- **Writing a file** ends in one of these ways. -/
theorem written_write (disk : Disk) (here : Location) (path : Path) (content : ByteArray) :
    disk.Written here path content (disk.write here path content) := by
  unfold write
  split
  · rename_i location opened hopen
    obtain ⟨hopens, rfl⟩ := opens_of_openFile hopen
    have hlimits : (disk.fill location .empty).limits = disk.limits := rfl
    rw [hlimits]
    split
    · rename_i limit hlimit
      obtain ⟨hlimit, hshort⟩ := Option.filter_eq_some_iff.1 hlimit
      rw [fill_fill disk hopens.ne_nil]
      exact .short hopens hlimit (of_decide_eq_true hshort)
    · rw [fill_fill disk hopens.ne_nil]
      exact .complete hopens
  · exact .unopened

/-! ## Making a directory -/

/-- **Making a directory** puts it where there is nothing, and the path leads to it. -/
theorem exists_of_createDirectory (h : disk.createDirectory here path = .created later) :
    ∃ location ≠ [], disk.lookup? location = none ∧ later = disk.put location .directory ∧
      later.resolve here path = .ok location := by
  unfold createDirectory at h
  split at h
  · rename_i husable
    dsimp only at h
    split at h
    · rename_i directory name htarget
      split at h
      · rename_i hfree
        obtain ⟨hname, hfree⟩ := Bool.and_eq_true_iff.1 hfree
        obtain ⟨front, hsegments, hwalk, hdirectory⟩ := target_eq_ok htarget hname
        have hfree' : disk.lookup? (directory ++ [name]) = none := by simpa using hfree
        have hgrows : disk.Grows (disk.put (directory ++ [name]) .directory) :=
          grows_put (by simp) (Or.inl rfl)
        have hput : Disk.lookup? (disk.put (directory ++ [name]) .directory) (directory ++ [name]) =
            some .directory := by
          rw [lookup?_put disk (by simp), if_pos rfl]
        obtain rfl := Creation.created.inj h
        refine ⟨directory ++ [name], by simp, hfree', rfl, ?_⟩
        -- the segments of the path are those that were followed, and the empty ones at the end
        have hsplit : (route here path).2 =
            front ++ name :: ((route here path).2.reverse.takeWhile (· = [])).reverse := by
          have hreverse := congrArg List.reverse (List.takeWhile_append_dropWhile
            (p := fun segment : Segment => segment = []) (l := (route here path).2.reverse))
          rw [List.reverse_append, List.reverse_reverse, hsegments, List.append_assoc] at hreverse
          exact hreverse.symm
        rw [Disk.resolve, if_pos husable]
        dsimp only
        rw [hsplit]
        refine hgrows.walk_to hwalk hdirectory hname (by rw [hput]; rfl) (fun segment hsegment => ?_)
          (Or.inl (by rw [isDirectoryAt, hput]; rfl))
        simpa using List.mem_takeWhile_imp (List.mem_reverse.1 hsegment)
      · cases h
    · cases h
    · cases h
  · cases h

/-! ## Making several directories -/

/-- Nothing is new but directories, and to each of them one of the given paths leads. -/
structure Made (here : Location) (paths : Path → Prop) (disk later : Disk) : Prop where
  limits : later.limits = disk.limits
  entries : ∀ location, later.lookup? location = disk.lookup? location ∨
    disk.lookup? location = none ∧ later.lookup? location = some .directory ∧
      ∃ path, paths path ∧ later.resolve here path = .ok location

namespace Made

variable {paths paths' : Path → Prop} {mid : Disk}

theorem refl (here : Location) (paths : Path → Prop) (disk : Disk) : Made here paths disk disk :=
  ⟨rfl, fun _ => Or.inl rfl⟩

theorem mono (h : Made here paths disk later) (hpaths : ∀ path, paths path → paths' path) :
    Made here paths' disk later := by
  refine ⟨h.limits, fun location => ?_⟩
  rcases h.entries location with hsame | ⟨hnone, hnew, path, hpath, hresolve⟩
  · exact Or.inl hsame
  · exact Or.inr ⟨hnone, hnew, path, hpaths path hpath, hresolve⟩

theorem grows (h : Made here paths disk later) : disk.Grows later where
  directory location hdirectory := by
    rcases h.entries location with hsame | ⟨-, hnew, -⟩
    · rwa [isDirectoryAt, hsame]
    · rw [isDirectoryAt, hnew]
      rfl
  present location hpresent := by
    rcases h.entries location with hsame | ⟨-, hnew, -⟩
    · rwa [hsame]
    · rw [hnew]
      rfl

theorem trans (h : Made here paths disk mid) (h' : Made here paths mid later) : Made here paths disk later := by
  refine ⟨h'.limits.trans h.limits, fun location => ?_⟩
  rcases h'.entries location with hsame' | ⟨hnone', hnew', path, hpath, hresolve⟩
  · rw [hsame']
    rcases h.entries location with hsame | ⟨hnone, hnew, path, hpath, hresolve⟩
    · exact Or.inl hsame
    · exact Or.inr ⟨hnone, hnew, path, hpath, h'.grows.resolve hresolve⟩
  · -- what was not there in between was not there before
    rcases h.entries location with hsame | ⟨-, hnew, -⟩
    · exact Or.inr ⟨hsame ▸ hnone', hnew', path, hpath, hresolve⟩
    · rw [hnew] at hnone'
      cases hnone'

/-- No file is made or changed. -/
theorem content?_eq (h : Made here paths disk later) (location : Location) :
    (later.lookup? location).bind Entry.content? = (disk.lookup? location).bind Entry.content? := by
  rcases h.entries location with hsame | ⟨hnone, hnew, -⟩
  · rw [hsame]
  · rw [hnone, hnew]
    rfl

/-- No device is made. -/
theorem sink_iff (h : Made here paths disk later) :
    later.lookup? location = some .sink ↔ disk.lookup? location = some .sink := by
  rcases h.entries location with hsame | ⟨hnone, hnew, -⟩
  · rw [hsame]
  · simp [hnone, hnew]

/-- **A file is opened** after directories have been made: whatever is put into it, elsewhere nothing is new but
the directories. -/
theorem fill (h : Made here paths disk mid) (hopens : mid.Opens here path location) (content : ByteArray)
    {other : Location} (hother : other ≠ location) :
    (mid.fill location content).lookup? other = disk.lookup? other ∨
      disk.lookup? other = none ∧ (mid.fill location content).lookup? other = some .directory ∧
        ∃ above, paths above ∧ (mid.fill location content).resolve here above = .ok other := by
  rw [hopens.lookup?_fill, if_neg hother]
  rcases h.entries other with hsame | ⟨hnone, hnew, above, habove, hleads⟩
  · exact Or.inl hsame
  · exact Or.inr ⟨hnone, hnew, above, habove, (hopens.grows content).resolve hleads⟩

end Made

theorem made_createDirectory (h : disk.createDirectory here path = .created later) :
    Made here (· = path) disk later := by
  obtain ⟨location, hlocation, hnone, rfl, hresolve⟩ := exists_of_createDirectory h
  refine ⟨rfl, fun other => ?_⟩
  rw [lookup?_put disk hlocation]
  split
  · rename_i hother
    subst hother
    exact Or.inr ⟨hnone, rfl, path, rfl, hresolve⟩
  · exact Or.inl rfl

/-- **Making a directory and those above it**, as far as it gets. -/
theorem made_createWithin (here : Location) (bound : Nat) (disk : Disk) (path : Path) :
    Made here (fun above => above = path ∨ Path.Above above path) disk
      (createWithin here bound disk path).2 := by
  induction bound generalizing disk path with
  | zero => exact .refl here _ disk
  | succ bound ih =>
    -- creating the path itself is all that is done after the directories above it
    have hpath : ∀ {disk later : Disk}, disk.createDirectory here path = .created later →
        Made here (fun above => above = path ∨ Path.Above above path) disk later :=
      fun h => (made_createDirectory h).mono fun _ => Or.inl
    rw [createWithin]
    split
    · exact .refl here _ disk
    · split
      · rename_i hcreated
        exact hpath hcreated
      · exact .refl here _ disk
      · split
        · exact .refl here _ disk
        · rename_i parent hparent
          have habove : Made here (fun above => above = path ∨ Path.Above above path) disk
              (createWithin here bound disk parent).2 := by
            refine (ih disk parent).mono fun above hcases => Or.inr ?_
            rcases hcases with rfl | hcases
            · exact .parent hparent
            · exact .further hparent hcases
          split
          · rename_i failed hfailed
            rwa [hfailed] at habove
          · rename_i made hmade
            rw [hmade] at habove
            split
            · rename_i hcreated
              exact habove.trans (hpath hcreated)
            · exact habove

theorem made_createDirectories (disk : Disk) (here : Location) (path : Path) :
    Made here (fun above => above = path ∨ Path.Above above path) disk (disk.createDirectories here path).2 :=
  made_createWithin here (path.bytes.length + 1) disk path

end Disk

end TemplateCode
