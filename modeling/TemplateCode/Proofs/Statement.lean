import TemplateCode.Proofs.Names

/-!
# Statements

Code as a tree: a block has a head and a body, and the body is a list of statements. Printing such a
tree needs a depth and a number for the next synthetic name, but no stack of open blocks.

* `Statement.print`, `Statement.printAll`: how statements are printed.
* `Code.print`: printing statements at the end of code under construction.
* `Code.openBlock_print`, `Code.openScope_print`, `Code.splice_print`: opening a block, printing what is
  inside and closing the block is printing the block; splicing in is printing a branch.
-/

namespace TemplateCode

/-- A statement of generated code. -/
inductive Statement where
  /-- A line, unless its text is empty. -/
  | line (text : String)
  /-- The declaration of a synthetic variable, unless the initializer is empty. -/
  | read (initializer : String)
  | block (header : String) (body : List Statement)
  /-- A synthetic function, whose parameters stand for names that become visible. -/
  | scope (params : List String) (body : List Statement)
  /-- A branch of an await block. Numbers are not counted down after it, even if those inside it have
  run over. -/
  | branch (body : List Statement)

namespace Statement

mutual

/-- How a statement is printed at a depth, with synthetic names numbered from `first`. -/
def print (depth : Nat) (first : UInt64) : Statement → Fragment
  | line text => ⟨if text = "" then [] else [⟨.plain, depth, text⟩], first⟩
  | read initializer =>
    if initializer = "" then
      ⟨[], first⟩
    else
      ⟨[⟨.declaration, depth, (NameEntry.var initializer).text first.toNat⟩], first + 1⟩
  | block header body =>
    let inner := printAll (depth + 1) first body
    ⟨⟨.opener, depth, header ++ " \x7b"⟩ :: (inner.lines ++ [⟨.closer, depth, "\x7d"⟩]), inner.next⟩
  | scope params body =>
    let inner := printAll (depth + 1) (first + 1) body
    ⟨⟨.scope, depth, (NameEntry.fn params).text first.toNat⟩ ::
      (inner.lines ++ [⟨.closer, depth, "\x7d"⟩]), inner.next⟩
  | branch body =>
    let inner := printAll depth first body
    ⟨inner.lines, max first inner.next⟩

/-- How statements are printed one after the other. -/
def printAll (depth : Nat) (first : UInt64) : List Statement → Fragment
  | [] => ⟨[], first⟩
  | statement :: statements =>
    let head := print depth first statement
    let tail := printAll depth head.next statements
    ⟨head.lines ++ tail.lines, tail.next⟩

end

attribute [local simp] print printAll

theorem printAll_singleton (depth : Nat) (first : UInt64) (statement : Statement) :
    printAll depth first [statement] = print depth first statement := by
  simp

theorem printAll_append (depth : Nat) (first : UInt64) (statements more : List Statement) :
    printAll depth first (statements ++ more) =
      ⟨(printAll depth first statements).lines ++
          (printAll depth (printAll depth first statements).next more).lines,
        (printAll depth (printAll depth first statements).next more).next⟩ := by
  induction statements generalizing first with
  | nil => rfl
  | cons statement statements ih => simp [ih]

/-- A property of statements that passes from the bodies of blocks to the blocks holds of all
statements. -/
theorem induction {P : List Statement → Prop} (nil : P [])
    (line : ∀ text rest, P rest → P (.line text :: rest))
    (read : ∀ initializer rest, P rest → P (.read initializer :: rest))
    (block : ∀ header body rest, P body → P rest → P (.block header body :: rest))
    (scope : ∀ params body rest, P body → P rest → P (.scope params body :: rest))
    (branch : ∀ body rest, P body → P rest → P (.branch body :: rest)) :
    ∀ statements, P statements := by
  refine @Statement.rec_1 (fun statement => ∀ rest, P rest → P (statement :: rest)) P
    ?_ ?_ ?_ ?_ ?_ ?_ ?_
  · exact line
  · exact read
  · exact fun header body ih rest => block header body rest ih
  · exact fun params body ih rest => scope params body rest ih
  · exact fun body ih rest => branch body rest ih
  · exact nil
  · exact fun statement statements ihHead ihTail => ihHead statements ihTail

/-- **Printing deeper is printing and moving in.** -/
theorem printAll_add (level depth : Nat) (statements : List Statement) (first : UInt64) :
    printAll (level + depth) first statements =
      ⟨(printAll depth first statements).lines.map (Line.nest level),
        (printAll depth first statements).next⟩ := by
  induction statements using Statement.induction generalizing depth first with
  | nil => rfl
  | line text rest ih =>
    rw [printAll, printAll, print, print, ih]
    split <;> simp [Line.nest]
  | read initializer rest ih =>
    rw [printAll, printAll, print, print]
    split <;> simp [ih, Line.nest]
  | block header body rest ihBody ih =>
    rw [printAll, printAll, print, print, Nat.add_assoc, ihBody, ih]
    simp [Line.nest]
  | scope params body rest ihBody ih =>
    rw [printAll, printAll, print, print, Nat.add_assoc, ihBody, ih]
    simp [Line.nest]
  | branch body rest ihBody ih =>
    rw [printAll, printAll, print, print, ihBody, ih]
    simp

/-- **Blocks that follow each other** have their heads and their ends at the outermost depth, and all
else further in. -/
theorem printAll_blocks (blocks : List (String × List Statement)) (first : UInt64) :
    ((printAll 0 first (blocks.map fun clause => block clause.1 clause.2)).lines.filter fun line =>
        line.depth = 0).map Line.text =
      (blocks.map Prod.fst).flatMap fun header => [header ++ " \x7b", "\x7d"] := by
  induction blocks generalizing first with
  | nil => rfl
  | cons clause blocks ih =>
    -- the body is printed one level further in
    have hinner : ((printAll (0 + 1) first clause.2).lines.filter fun line => line.depth = 0) = [] := by
      rw [Nat.zero_add, ← Nat.add_zero 1, printAll_add, List.filter_eq_nil_iff]
      intro line hline
      obtain ⟨inner, -, rfl⟩ := List.mem_map.1 hline
      simp [Line.nest]
    rw [List.map_cons, printAll, print, List.map_cons, List.flatMap_cons,
      ← ih (printAll (0 + 1) first clause.2).next]
    simp [hinner]

/-- What is printed is nested. -/
theorem nested_printAll (depth : Nat) (statements : List Statement) (first : UInt64) :
    Nested depth (printAll depth first statements).lines depth := by
  induction statements using Statement.induction generalizing depth first with
  | nil => exact .nil depth
  | line text rest ih =>
    rw [printAll, print]
    split
    · exact ih depth first
    · rename_i htext
      exact .stay rfl htext (ih depth first)
  | read initializer rest ih =>
    rw [printAll, print]
    split
    · exact ih depth first
    · exact .stay rfl (by simp [NameEntry.text]) (ih depth (first + 1))
  | block header body rest ihBody ih =>
    rw [printAll, print]
    refine .append (.enter rfl ((ihBody (depth + 1) first).append (.leave (.nil depth)))) ?_
    exact ih depth _
  | scope params body rest ihBody ih =>
    rw [printAll, print]
    refine .append (.enter rfl ((ihBody (depth + 1) (first + 1)).append (.leave (.nil depth)))) ?_
    exact ih depth _
  | branch body rest ihBody ih =>
    rw [printAll, print]
    exact (ihBody depth first).append (ih depth _)

end Statement

/-! ## Code under construction -/

variable {ι : Type}

namespace Code

/-- Prints statements at the current level, with names counted on. -/
def print (statements : List Statement) (code : Code ι) : Code ι :=
  let printed := Statement.printAll code.level code.counter statements
  { code with written := printed.lines.reverse ++ code.written, counter := printed.next }

theorem print_append (statements more : List Statement) (code : Code ι) :
    code.print (statements ++ more) = (code.print statements).print more := by
  simp [print, Statement.printAll_append, level]

theorem print_cons (statement : Statement) (statements : List Statement) (code : Code ι) :
    code.print (statement :: statements) = (code.print [statement]).print statements :=
  print_append [statement] statements code

theorem fragment_start_print (statements : List Statement) (seed : UInt64) :
    ((start seed : Code ι).print statements).fragment = Statement.printAll 0 seed statements := by
  simp [fragment, print, lines, start, level]

theorem append_eq_print (text : String) (code : Code ι) :
    code.append text = code.print [.line text] := by
  unfold append write print
  rw [Statement.printAll_singleton, Statement.print]
  split <;> rfl

theorem declare_eq_print (initializer : String) (code : Code ι) :
    code.declare initializer = code.print [.read initializer] := by
  unfold declare print
  rw [Statement.printAll_singleton, Statement.print]
  split
  · rfl
  · unfold write
    rw [if_neg (by simp)]
    rfl

/-- Opening a block, printing what is inside and closing it, for any kind of block. -/
theorem openWith_print (role : Role) (header : String) (owner : Option ι) (body : List Statement)
    (code : Code ι) :
    ((code.openWith role header owner).print body).closeInnermost =
      { code with
        written := ⟨.closer, code.level, "\x7d"⟩ ::
          ((Statement.printAll (code.level + 1) code.counter body).lines.reverse ++
            ⟨role, code.level, header ++ " \x7b"⟩ :: code.written)
        counter := (Statement.printAll (code.level + 1) code.counter body).next } := by
  have hopen : code.openWith role header owner =
      { code with
        written := ⟨role, code.level, header ++ " \x7b"⟩ :: code.written
        frames := owner :: code.frames } := by
    unfold openWith write
    rw [if_neg (by simp)]
  rw [hopen]
  unfold closeInnermost print write
  dsimp only
  rw [if_neg (by simp)]
  rfl

/-- **A block**: opening it, printing its body and closing it. -/
theorem openBlock_print (header : String) (owner : Option ι) (body : List Statement) (code : Code ι) :
    ((code.openBlock header owner).print body).closeInnermost = code.print [.block header body] := by
  unfold openBlock
  rw [openWith_print, print, Statement.printAll_singleton, Statement.print]
  simp

/-- **A scope** likewise, which takes a number first. -/
theorem openScope_print (params : List String) (owner : Option ι) (body : List Statement)
    (code : Code ι) :
    ((code.openScope params owner).print body).closeInnermost = code.print [.scope params body] := by
  unfold openScope
  rw [openWith_print, print, Statement.printAll_singleton, Statement.print]
  simp [count, level, nextName, NameEntry.text, NameEntry.name]

/-- **A branch**: splicing in what was printed in a run of its own. -/
theorem splice_print (body : List Statement) (code : Code ι) :
    code.splice (Statement.printAll 0 code.counter body) = code.print [.branch body] := by
  have hfilter := (Statement.nested_printAll 0 body code.counter).filter_eq
  have hlevel := Statement.printAll_add code.level 0 body code.counter
  rw [Nat.add_zero] at hlevel
  unfold splice
  rw [hfilter, print, Statement.printAll_singleton, Statement.print, hlevel]

end Code

end TemplateCode
