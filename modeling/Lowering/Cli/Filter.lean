import Lowering.Event

/-!
# Choosing what is logged

A filter is a list of directives, each a level for a part of the program or for all of it. The most
specific directive that covers an event decides, and an event that none covers is not logged. A filter
is written as directives with commas between them: a level alone, the name of a part alone, or a name
and a level with an equals sign between them.
-/

namespace Lowering.Cli

/-- The least important level that a part of the program logs; rank zero logs nothing. -/
structure Directive where
  part : String
  rank : Nat

/-- The rank of a level by its name. -/
def rankNamed? (name : String) : Option Nat :=
  match String.ofList (name.toList.map Char.toLower) with
  | "off" => some 0
  | "error" => some 1
  | "warn" => some 2
  | "info" => some 3
  | "debug" => some 4
  | "trace" => some 5
  | _ => none

/-- A directive without blanks around it. -/
def directive? (text : String) : Option Directive :=
  match text.splitOn "=" with
  | [word] =>
    if word.isEmpty then none
    else
      match rankNamed? word with
      | some rank => some ⟨"", rank⟩
      | none => some ⟨word, 5⟩
  | [part, level] =>
    if level.isEmpty then some ⟨part, 5⟩ else (rankNamed? level).map fun rank => ⟨part, rank⟩
  | _ => none

/-- A list of directives. -/
structure Filter where
  directives : List Directive

namespace Filter

/-- Logs everything from a level up. -/
def ofLevel (level : Level) : Filter :=
  ⟨[⟨"", level.rank⟩]⟩

/-- The filter that a text describes; one without directives logs errors only. -/
def ofText (text : String) : Filter :=
  match (text.splitOn ",").filterMap fun part => directive? part.trimAscii.toString with
  | [] => ofLevel .error
  | directives => ⟨directives⟩

/-- The more specific of a directive that covers a source and the best one so far; of equally specific
ones the later counts. -/
def better (source : String) (best : Option Directive) (next : Directive) : Option Directive :=
  if source.startsWith next.part then
    match best with
    | some best => if best.part.length ≤ next.part.length then some next else some best
    | none => some next
  else best

/-- Whether an event is logged. -/
def allows (filter : Filter) (event : Event) : Bool :=
  match filter.directives.foldl (better event.source) none with
  | some directive => decide (event.level.rank ≤ directive.rank)
  | none => false

end Filter

/-- The filter for a number of wishes for more messages. -/
def Filter.ofVerbosity : Nat → Filter
  | 0 => .ofLevel .warn
  | 1 => .ofLevel .debug
  | _ => .ofLevel .trace

end Lowering.Cli
