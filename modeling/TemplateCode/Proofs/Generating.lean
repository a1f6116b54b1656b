import TemplateCode.Proofs.Tasks
import TemplateCode.Proofs.Verbatim

/-!
# Generating code for a template

Everything that can be wrong with a template and its tree comes out before anything is written. Then the
directories above the output are made, as far as they are missing, and one file is written. This may stop short,
when the file has been emptied already.

* `Session.Refuses`: what is wrong with a template or its tree on a machine.
* `Session.perform_render`: rendering leaves the machine as it is, `Session.perform_render_eq_error_iff`: it
  fails if and only if something is wrong.
* `Session.exists_perform_writeCode`: what is done before code is written.
* `Session.Outcome`: how generating code may end, `Session.outcome_generate`: it ends in one of these ways.
* `generate_disk`: **what generating code does to the file system.**
-/

namespace TemplateCode

theorem Pipeline.code_of_load_error {settings : Settings} {markup json name : String} {fault : Malformation}
    (hload : Node.ofText json = .error fault) :
    Pipeline.code settings markup json name = .error .rejected := by
  simp [Pipeline.code, Pipeline.prepare, Pipeline.load, hload, bind, Except.bind, Except.mapError]

theorem Pipeline.code_of_misfit {settings : Settings} {markup json name : String} {root : Node}
    {fault : Fault} (hload : Node.ofText json = .ok root)
    (hfit : root.validate (Pipeline.preprocess settings markup) = .error fault) :
    Pipeline.code settings markup json name = .error (.mismatched name) := by
  simp [Pipeline.code, Pipeline.prepare, Pipeline.load, Pipeline.validate, hload, hfit, bind, Except.bind,
    Except.mapError]

namespace Session

open Machine

variable {session : Session} {machine : Machine} {file tree : Path} {failure : Failure}

/-! ## Rendering -/

/-- What is wrong with a template or its tree: a file has no text, the tree cannot be loaded, or it does not
fit the template. -/
inductive Refuses (session : Session) (machine : Machine) (file tree : Path) : Failure → Prop
  | template (htemplate : machine.text? file = none) : Refuses session machine file tree (.unreadable file)
  | tree {markup : String} (htemplate : machine.text? file = some markup)
    (htree : machine.text? tree = none) : Refuses session machine file tree (.unreadable tree)
  | load {markup json : String} {fault : Malformation} (htemplate : machine.text? file = some markup)
    (htree : machine.text? tree = some json) (hload : Node.ofText json = .error fault) :
    Refuses session machine file tree .rejected
  | fit {markup json : String} {root : Node} {fault : Fault} (htemplate : machine.text? file = some markup)
    (htree : machine.text? tree = some json) (hload : Node.ofText json = .ok root)
    (hfit : root.validate (Pipeline.preprocess session.settings markup) = .error fault) :
    Refuses session machine file tree (.mismatched file.text)

/-- Rendering reads two files and changes nothing. -/
theorem perform_render (session : Session) (machine : Machine) (file tree : Path) :
    machine.perform (session.render file tree) =
      (match machine.text? file, machine.text? tree with
        | none, _ => .error (.unreadable file)
        | some _, none => .error (.unreadable tree)
        | some markup, some json => Pipeline.code session.settings markup json file.text, machine) := by
  rw [render, perform_bind, perform_readText]
  cases machine.text? file with
  | none => rfl
  | some markup =>
    dsimp only [Option.elim]
    rw [perform_bind, perform_readText]
    cases machine.text? tree with
    | none => rfl
    | some json => rfl

/-- **Rendering fails** if and only if something is wrong with the template or its tree. -/
theorem perform_render_eq_error_iff :
    machine.perform (session.render file tree) = (.error failure, machine) ↔
      session.Refuses machine file tree failure := by
  rw [perform_render, Prod.mk.injEq]
  refine ⟨fun ⟨h, _⟩ => ?_, fun h => ⟨?_, rfl⟩⟩
  · split at h
    · rename_i htemplate
      cases h
      exact .template htemplate
    · rename_i htemplate htree
      cases h
      exact .tree htemplate htree
    · rename_i markup json htemplate htree
      cases hload : Node.ofText json with
      | error fault =>
        rw [Pipeline.code_of_load_error hload] at h
        cases h
        exact .load htemplate htree hload
      | ok root =>
        cases hfit : root.validate (Pipeline.preprocess session.settings markup) with
        | error fault =>
          rw [Pipeline.code_of_misfit hload hfit] at h
          cases h
          exact .fit htemplate htree hload hfit
        | ok _ =>
          rw [Pipeline.code_eq_ok_iff.2 ⟨root, hload, hfit, rfl⟩] at h
          cases h
  · cases h with
    | template htemplate => simp only [htemplate]
    | tree htemplate htree => simp only [htemplate, htree]
    | load htemplate htree hload => simp only [htemplate, htree, Pipeline.code_of_load_error hload]
    | fit htemplate htree hload hfit => simp only [htemplate, htree, Pipeline.code_of_misfit hload hfit]

/-! ## Writing -/

/-- A failure to write code to a file: a directory above it cannot be made, or the file cannot be written. -/
inductive Obstructed (path : Path) : Failure → Prop
  | directory {parent : Path} (h : path.parent? = some parent) : Obstructed path (.uncreatable parent)
  | file : Obstructed path (.unwritable path)

/-- **Writing code** makes directories above the file first. If that does not fail, the file is written. -/
theorem exists_perform_writeCode (machine : Machine) (path : Path) (code : String) :
    ∃ made, Disk.Made machine.here (Path.Above · path) machine.disk made ∧
      ((∃ parent, path.parent? = some parent ∧
          machine.perform (writeCode path code) =
            (.error (.uncreatable parent), { machine with disk := made })) ∨
        machine.perform (writeCode path code) =
          Machine.perform { machine with disk := made } (writeText path (code ++ "\n"))) := by
  cases hparent : path.parent? with
  | none =>
    refine ⟨machine.disk, .refl _ _ _, Or.inr ?_⟩
    simp only [writeCode, hparent]
  | some parent =>
    by_cases hempty : parent.isEmpty = true
    · refine ⟨machine.disk, .refl _ _ _, Or.inr ?_⟩
      simp only [writeCode, hparent, hempty]
      rfl
    · have hmade : Disk.Made machine.here (Path.Above · path) machine.disk
          (machine.disk.createDirectories machine.here parent).2 := by
        refine (Disk.made_createDirectories machine.disk machine.here parent).mono fun above hcases => ?_
        rcases hcases with rfl | hcases
        · exact .parent hparent
        · exact .further hparent hcases
      refine ⟨_, hmade, ?_⟩
      simp only [writeCode, hparent, Bool.eq_false_iff.2 hempty, Bool.not_false, if_true]
      rw [perform_bind_of_ok (perform_createDirectories machine parent)]
      cases (machine.disk.createDirectories machine.here parent).1 with
      | true => exact Or.inr rfl
      | false => exact Or.inl ⟨parent, rfl, rfl⟩

/-! ## Generating -/

/-- What is wrong with a template or its tree comes out before anything is written. -/
theorem perform_generate_of_refuses (h : session.Refuses machine file tree failure) (out : Option Path) :
    machine.perform (session.generate file tree out) = (.error failure, machine) := by
  rw [generate, perform_bind_of_error (perform_render_eq_error_iff.2 h)]

/-- How generating code ends: something is wrong with the template or its tree, or the code is printed, or it
is written to its place after the directories above it have been made, or nothing can be written there, or
writing it stops short. -/
inductive Outcome (session : Session) (machine : Machine) (file tree : Path) (out : Option Path) :
    Except Failure (Option Path) → Machine → Prop
  | refused {failure : Failure} (hrefuses : session.Refuses machine file tree failure) :
    Outcome session machine file tree out (.error failure) machine
  | printed {after : Machine} (hpath : session.outputPath? file out = none)
    (hdisk : after.disk = machine.disk) : Outcome session machine file tree out (.ok none) after
  | written {code : String} {path : Path} {made : Disk} {location : Location} {after : Machine}
    (hrender : machine.perform (session.render file tree) = (.ok code, machine))
    (hpath : session.outputPath? file out = some path)
    (hmade : Disk.Made machine.here (Path.Above · path) machine.disk made)
    (hopens : made.Opens machine.here path location)
    (hdisk : after.disk = made.fill location (code ++ "\n").toUTF8) :
    Outcome session machine file tree out (.ok (some path)) after
  | obstructed {path : Path} {failure : Failure} {after : Machine}
    (hpath : session.outputPath? file out = some path) (hobstructed : Obstructed path failure)
    (hmade : Disk.Made machine.here (Path.Above · path) machine.disk after.disk) :
    Outcome session machine file tree out (.error failure) after
  | short {code : String} {path : Path} {made : Disk} {location : Location} {limit : Nat} {after : Machine}
    (hrender : machine.perform (session.render file tree) = (.ok code, machine))
    (hpath : session.outputPath? file out = some path)
    (hmade : Disk.Made machine.here (Path.Above · path) machine.disk made)
    (hopens : made.Opens machine.here path location) (hlimit : made.limits.lookup location = some limit)
    (hshort : limit < (code ++ "\n").toUTF8.size)
    (hdisk : after.disk = made.fill location ((code ++ "\n").toUTF8.extract 0 limit)) :
    Outcome session machine file tree out (.error (.unwritable path)) after

/-- **Every run ends in one of these ways.** -/
theorem outcome_generate (session : Session) (file tree : Path) (out : Option Path) (machine : Machine) :
    Outcome session machine file tree out (machine.perform (session.generate file tree out)).1
      (machine.perform (session.generate file tree out)).2 := by
  cases hrender : (machine.perform (session.render file tree)).1 with
  | error failure =>
    have hperform : machine.perform (session.render file tree) = (.error failure, machine) :=
      Prod.ext hrender (by rw [perform_render])
    have hrefuses := perform_render_eq_error_iff.1 hperform
    rw [perform_generate_of_refuses hrefuses out]
    exact .refused hrefuses
  | ok code =>
    have hperform : machine.perform (session.render file tree) = (.ok code, machine) :=
      Prod.ext hrender (by rw [perform_render])
    rw [generate, perform_bind_of_ok hperform]
    cases hpath : session.outputPath? file out with
    | none => exact .printed hpath rfl
    | some path =>
      dsimp only
      obtain ⟨made, hmade, ⟨parent, hparent, hcode⟩ | hcode⟩ := exists_perform_writeCode machine path code
      · rw [perform_bind_of_error hcode]
        exact .obstructed hpath (.directory hparent) hmade
      · have hwritten := made.written_write machine.here path (code ++ "\n").toUTF8
        rw [perform_writeText] at hcode
        dsimp only at hcode
        cases hwrite : made.write machine.here path (code ++ "\n").toUTF8 with
        | mk done later =>
          rw [hwrite] at hcode hwritten
          cases hwritten with
          | unopened =>
            rw [perform_bind_of_error hcode]
            exact .obstructed hpath .file hmade
          | complete hopens =>
            rw [perform_bind_of_ok hcode]
            exact .written hperform hpath hmade hopens rfl
          | short hopens hlimit hshort =>
            rw [perform_bind_of_error hcode]
            exact .short hperform hpath hmade hopens hlimit hshort rfl

theorem eq_of_outputPath?_eq_none {out : Option Path} (h : session.outputPath? file out = none) :
    out = none ∧ session.settings.write = false := by
  cases out with
  | some given => cases h
  | none =>
    rw [outputPath?] at h
    split at h
    · cases h
    · rename_i hwrite
      exact ⟨rfl, Bool.eq_false_iff.2 hwrite⟩

theorem eq_of_outputPath?_eq_some {out : Option Path} {path : Path}
    (h : session.outputPath? file out = some path) :
    out = some path ∨
      out = none ∧ session.settings.write = true ∧ path = session.settings.outputPath session.root file := by
  cases out with
  | some given => exact Or.inl h
  | none =>
    refine Or.inr ⟨rfl, ?_⟩
    rw [outputPath?] at h
    split at h
    · rename_i hwrite
      exact ⟨hwrite, (Option.some.inj h).symm⟩
    · cases h

end Session

/-- **Generating code writes one file or none.** If something is wrong with the template or its tree, that is
the failure, and the machine is as before. If the code is printed, the file system is as before. If the code is
written, it goes to the given place, or else to the one that the settings choose. The file holds what rendering
gives on the machine as it was, and a line break, unless a device has taken it, and elsewhere nothing is new but
directories above it. Any other failure is one to write the code. It changes no file, or else writing has
stopped short: then it changes no other file, and this one holds the beginning of what was to be written. -/
theorem generate_disk (session : Session) (file tree : Path) (out : Option Path) (machine : Machine) :
    (∀ failure, session.Refuses machine file tree failure →
      machine.perform (session.generate file tree out) = (.error failure, machine)) ∧
    (∀ after, machine.perform (session.generate file tree out) = (.ok none, after) →
      out = none ∧ session.settings.write = false ∧ after.disk = machine.disk) ∧
    (∀ path after, machine.perform (session.generate file tree out) = (.ok (some path), after) →
      (out = some path ∨
        out = none ∧ session.settings.write = true ∧ path = session.settings.outputPath session.root file) ∧
      ∃ code location, machine.perform (session.render file tree) = (.ok code, machine) ∧
        after.disk.resolve machine.here path = .ok location ∧
        (after.disk.read machine.here path = some (code ++ "\n").toUTF8 ∨
          machine.disk.lookup? location = some .sink ∧ after.disk.lookup? location = some .sink) ∧
        ∀ other, other ≠ location →
          after.disk.lookup? other = machine.disk.lookup? other ∨
          machine.disk.lookup? other = none ∧ after.disk.lookup? other = some .directory ∧
            ∃ above ∈ path.ancestors, above ≠ path ∧ after.disk.resolve machine.here above = .ok other) ∧
    ∀ failure after, machine.perform (session.generate file tree out) = (.error failure, after) →
      session.Refuses machine file tree failure ∨
      ∃ path, session.outputPath? file out = some path ∧ Session.Obstructed path failure ∧
        ((∀ location, (after.disk.lookup? location).bind Entry.content? =
            (machine.disk.lookup? location).bind Entry.content?) ∨
          failure = .unwritable path ∧
          ∃ code location limit, machine.perform (session.render file tree) = (.ok code, machine) ∧
            after.disk.resolve machine.here path = .ok location ∧
            machine.disk.limits.lookup location = some limit ∧ limit < (code ++ "\n").toUTF8.size ∧
            after.disk.read machine.here path = some ((code ++ "\n").toUTF8.extract 0 limit) ∧
            ∀ other, other ≠ location → (after.disk.lookup? other).bind Entry.content? =
              (machine.disk.lookup? other).bind Entry.content?) := by
  have hends := Session.outcome_generate session file tree out machine
  refine ⟨fun failure hrefuses => ?_, fun after h => ?_, fun path after h => ?_, fun failure after h => ?_⟩
  · exact Session.perform_generate_of_refuses hrefuses out
  · rw [h] at hends
    cases hends with
    | printed hpath hdisk =>
      obtain ⟨hout, hwrite⟩ := Session.eq_of_outputPath?_eq_none hpath
      exact ⟨hout, hwrite, hdisk⟩
  · rw [h] at hends
    cases hends with
    | @written code _ made location _ hrender hpath hmade hopens hdisk =>
      rw [hdisk]
      refine ⟨Session.eq_of_outputPath?_eq_some hpath, code, location, hrender, hopens.resolve_fill _, ?_,
        fun other hne => ?_⟩
      · by_cases hsink : made.lookup? location = some .sink
        · exact Or.inr ⟨hmade.sink_iff.1 hsink, (hopens.lookup?_fill_of_sink hsink _ _).trans hsink⟩
        · exact Or.inl (hopens.read_fill hsink _)
      · obtain hsame | ⟨hnone, hnew, above, habove, hleads⟩ := hmade.fill hopens _ hne
        · exact Or.inl hsame
        · exact Or.inr ⟨hnone, hnew, above, Path.mem_ancestors.2 (Or.inr habove), habove.ne, hleads⟩
  · rw [h] at hends
    cases hends with
    | refused hrefuses => exact Or.inl hrefuses
    | obstructed hpath hobstructed hmade => exact Or.inr ⟨_, hpath, hobstructed, Or.inl hmade.content?_eq⟩
    | @short code _ made location limit _ hrender hpath hmade hopens hlimit hshort hdisk =>
      refine Or.inr ⟨_, hpath, .file, ?_⟩
      rw [hdisk]
      by_cases hsink : made.lookup? location = some .sink
      · refine Or.inl fun location => ?_
        rw [hopens.lookup?_fill_of_sink hsink]
        exact hmade.content?_eq location
      · refine Or.inr ⟨rfl, code, location, limit, hrender, hopens.resolve_fill _, hmade.limits ▸ hlimit,
          hshort, hopens.read_fill hsink _, fun other hne => ?_⟩
        rw [hopens.lookup?_fill, if_neg hne]
        exact hmade.content?_eq other

/-- A location with the names of texts. -/
def locationOf (names : List String) : Location :=
  names.map fun name => (Path.ofText name).bytes

/-- A machine with a template, its tree, a text that is no tree, and a device. There is an older file with code,
but no room for more than four bytes in it. -/
def workshop : Machine where
  disk := {
    entries := [(locationOf ["card"], .file "é:<style/>abc".toUTF8),
      (locationOf ["tree"], .file quotingText.toUTF8), (locationOf ["torn"], .file "\x7b".toUTF8),
      (locationOf ["old"], .file "let a;".toUTF8), (locationOf ["dev"], .directory),
      (locationOf ["dev", "null"], .sink)]
    limits := [(locationOf ["old"], 4)] }

theorem generate_disk_workshop :
    (∃ failure, Session.Refuses {} workshop "card" "torn" failure ∧
      workshop.perform (Session.generate {} "card" "torn" (some "code")) = (.error failure, workshop)) ∧
    (∃ after, workshop.perform (Session.generate {} "card" "tree" none) = (.ok none, after) ∧
      after.disk = workshop.disk) ∧
    (∃ after, workshop.perform (Session.generate { settings.write := true } "card" "tree" none) =
        (.ok (some "target/plainmark/card.ts"), after) ∧
      after.disk.resolve [] "target/plainmark/card.ts" = .ok (locationOf ["target", "plainmark", "card.ts"]) ∧
      after.disk.read [] "target/plainmark/card.ts" = some "let var$$0 = é;\n".toUTF8 ∧
      ∀ other, other ≠ locationOf ["target", "plainmark", "card.ts"] →
        after.disk.lookup? other = workshop.disk.lookup? other ∨
        workshop.disk.lookup? other = none ∧ after.disk.lookup? other = some .directory ∧
          ∃ above ∈ Path.ancestors "target/plainmark/card.ts", above ≠ "target/plainmark/card.ts" ∧
            after.disk.resolve [] above = .ok other) ∧
    ∃ after, workshop.perform (Session.generate {} "card" "tree" (some "card/new/code")) =
        (.error (.uncreatable "card/new"), after) ∧
      ∀ location, (after.disk.lookup? location).bind Entry.content? =
        (workshop.disk.lookup? location).bind Entry.content? := by
  have htorn : ∃ fault, Node.ofText "\x7b" = .error fault := by
    have hload : (Node.ofText "\x7b").toOption.isSome = false := by decide +kernel
    cases hresult : Node.ofText "\x7b" with
    | error fault => exact ⟨fault, rfl⟩
    | ok root => simp [hresult, Except.toOption] at hload
  obtain ⟨fault, hload⟩ := htorn
  have htemplate : workshop.text? "card" = some "é:<style/>abc" := by decide +kernel
  have htree : workshop.text? "torn" = some "\x7b" := by decide +kernel
  have hrefuses : Session.Refuses {} workshop "card" "torn" .rejected := .load htemplate htree hload
  have hprinted : workshop.perform (Session.generate {} "card" "tree" none) = (.ok none, _) :=
    Prod.ext (by decide +kernel) rfl
  have hwritten : workshop.perform (Session.generate { settings.write := true } "card" "tree" none) =
      (.ok (some "target/plainmark/card.ts"), _) := Prod.ext (by decide +kernel) rfl
  have hblocked : workshop.perform (Session.generate {} "card" "tree" (some "card/new/code")) =
      (.error (.uncreatable "card/new"), _) := Prod.ext (by decide +kernel) rfl
  refine ⟨⟨_, hrefuses, (generate_disk {} "card" "torn" (some "code") workshop).1 _ hrefuses⟩,
    ⟨_, hprinted, ((generate_disk {} "card" "tree" none workshop).2.1 _ hprinted).2.2⟩, ?_, _, hblocked, ?_⟩
  · obtain ⟨-, code, location, hrender, hresolve, hread, hother⟩ :=
      (generate_disk { settings.write := true } "card" "tree" none workshop).2.2.1 _ _ hwritten
    have hcode : (workshop.perform (Session.render { settings.write := true } "card" "tree")).1 =
        .ok "let var$$0 = é;" := by decide +kernel
    rw [hrender] at hcode
    cases hcode
    have hplace : location = locationOf ["target", "plainmark", "card.ts"] :=
      Except.ok.inj (hresolve.symm.trans (by decide +kernel))
    subst hplace
    have hnew : workshop.disk.lookup? (locationOf ["target", "plainmark", "card.ts"]) = none :=
      Option.isNone_iff_eq_none.1 (by decide +kernel)
    obtain hread | ⟨hsink, -⟩ := hread
    · exact ⟨_, hwritten, hresolve, hread, hother⟩
    · rw [hnew] at hsink
      cases hsink
  · obtain hrefuses | ⟨path, -, -, hcontent | ⟨hunwritable, -⟩⟩ :=
      (generate_disk {} "card" "tree" (some "card/new/code") workshop).2.2.2 _ _ hblocked
    · nomatch hrefuses
    · exact hcontent
    · cases hunwritable

/-- **A file may be lost, and code may go nowhere.** When there is no room for the code, the file that it was to
replace is emptied before the failure. A device takes the code without keeping it. -/
theorem generate_disk_spoils :
    (∃ after, workshop.perform (Session.generate {} "card" "tree" (some "old")) =
        (.error (.unwritable "old"), after) ∧
      workshop.text? "old" = some "let a;" ∧ after.text? "old" = some "let ") ∧
    ∃ after, workshop.perform (Session.generate {} "card" "tree" (some "/dev/null")) =
        (.ok (some "/dev/null"), after) ∧ after.text? "/dev/null" = some "" := by
  have hshort : workshop.perform (Session.generate {} "card" "tree" (some "old")) =
      (.error (.unwritable "old"), _) := Prod.ext (by decide +kernel) rfl
  have hsink : workshop.perform (Session.generate {} "card" "tree" (some "/dev/null")) =
      (.ok (some "/dev/null"), _) := Prod.ext (by decide +kernel) rfl
  exact ⟨⟨_, hshort, by decide +kernel, by decide +kernel⟩, _, hsink, by decide +kernel⟩

end TemplateCode
