import CallWeight.Program.Basic

/-! # The class hierarchy

Whether a class implements the runnable interface, whether it descends from the thread class, and
which method runs when it is started. Links may dangle or form cycles: a walk passes every declared
class at most once, and a class without a declaration ends it.
-/

namespace CallWeight

/-- Take the class of the given name out of a list. -/
def ClassDecl.pick? (name : Atom) : List ClassDecl → Option (ClassDecl × List ClassDecl)
  | [] => none
  | c :: rest =>
      if c.name.sameKey name then some (c, rest)
      else (pick? name rest).map fun (found, others) => (found, c :: others)

theorem ClassDecl.length_of_pick? {name : Atom} {classes rest : List ClassDecl} {c : ClassDecl}
    (found : pick? name classes = some (c, rest)) : rest.length + 1 = classes.length := by
  induction classes generalizing rest with
  | nil => simp [pick?] at found
  | cons d others ih =>
      by_cases same : d.name.sameKey name
      · simp only [pick?, if_pos same, Option.some.injEq, Prod.mk.injEq] at found
        simp [found.2]
      · simp only [pick?, if_neg same, Option.map_eq_some_iff] at found
        obtain ⟨⟨e, tail⟩, inner, eq⟩ := found
        simp only [Prod.mk.injEq] at eq
        obtain ⟨rfl, rfl⟩ := eq
        simp [← ih inner]

/-- The superclasses of a class from the nearest outwards. -/
inductive Ancestry where
  /-- There are no more superclasses. -/
  | done
  /-- The next superclass is no value that could name a class. -/
  | broken (fault : Fault)
  | link (name : Atom) (rest : Ancestry)

namespace Program

/-- The superclasses from a given one on. `remaining` are the declared classes not passed yet. -/
def ancestryFrom (program : Program) (start : Atom) (remaining : List ClassDecl)
    (superclass : Json) : Ancestry :=
  if !superclass.truthy then .done
  else
    match superclass with
    | .atom name =>
        if name.sameKey start then .done
        else
          match _found : ClassDecl.pick? name remaining with
          | some (c, rest) => .link name (ancestryFrom program start rest c.superclass)
          | none => if (program.class? name).isSome then .done else .link name .done
    | value => .broken (.notHashable value.kindName)
termination_by remaining.length
decreasing_by
  have := ClassDecl.length_of_pick? _found
  omega

def ancestry (program : Program) (c : ClassDecl) : Ancestry :=
  program.ancestryFrom c.name program.classes.values c.superclass

end Program

/-- Whether a superclass equals a given value. -/
def Ancestry.reaches (target : Json) : Ancestry → Except Fault Bool
  | .done => .ok false
  | .broken fault => .error fault
  | .link name rest => if target.equalsAtom name then .ok true else rest.reaches target

/-- What a class names as its superclass and interfaces, in the order in which they are visited. -/
def ClassDecl.parents (c : ClassDecl) : List Json :=
  (if c.superclass.truthy then [c.superclass] else []) ++ c.interfaces.reverse

namespace Program

/-- Search the names on the stack and everything above them for a target other than `start`. -/
def searchAbove (target : Json) (start : Atom) (remaining : List ClassDecl) :
    List Json → Except Fault Bool
  | [] => .ok false
  | .atom name :: stack =>
      if target.equalsAtom name && !name.equals start then .ok true
      else
        match _found : ClassDecl.pick? name remaining with
        | some (c, rest) => searchAbove target start rest (c.parents ++ stack)
        | none => searchAbove target start remaining stack
  | value :: _ => .error (.notHashable value.kindName)
termination_by stack => (remaining.length, stack.length)
decreasing_by
  · apply Prod.Lex.left
    have := ClassDecl.length_of_pick? _found
    omega
  · exact Prod.Lex.right _ (Nat.lt_succ_self _)

/-- Whether the runnable interface lies above a class. -/
def implementsRunnable (program : Program) (c : ClassDecl) : Except Fault Bool :=
  searchAbove program.config.runnableInterface c.name program.classes.values [.atom c.name]

/-- Whether the thread class is among the superclasses of a class. -/
def isThreadSubclass (program : Program) (c : ClassDecl) : Except Fault Bool :=
  (program.ancestry c).reaches program.config.threadClass

/-- The outcome of looking for the method that runs when a class is started. -/
inductive EntrySearch where
  | found (p : Procedure)
  | missing
  /-- The thread class itself provides it, but has no declaration. -/
  | undeclared (signature : Text)

/-- Look for a method in the superclasses of a class. -/
def entryAbove (program : Program) (subsignature : Atom) : Ancestry → Except Fault EntrySearch
  | .done => .ok .missing
  | .broken fault => .error fault
  | .link name rest =>
      match program.class? name with
      | some c =>
          match c.method? subsignature with
          | some p => .ok (.found p)
          | none => program.entryAbove subsignature rest
      | none =>
          if program.config.threadClass.equalsAtom name then
            .ok (.undeclared (Signature.make name.display subsignature.display))
          else .ok .missing

/-- The method that runs when a class is started: its own entry method or the nearest inherited
    one. -/
def entrySearch (program : Program) (c : ClassDecl) : Except Fault EntrySearch := do
  let subsignature ← program.config.entrySubsignature.asKey
  match c.method? subsignature with
  | some p => return .found p
  | none => program.entryAbove subsignature (program.ancestry c)

end Program

end CallWeight
