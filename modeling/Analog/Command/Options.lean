import Analog.Decimal.Radix

/-!
The command line. Options may stand anywhere, also before the command; a word `--` ends them. A long
option has its value after an equals sign or in the next word, and switches need none. Short options
may be written together.
-/
namespace Analog

structure Options where
  verbose : Bool
  simplify : Bool
  colour : Bool
  all : Bool
  help : Bool
  version : Bool
  configFile : String
  definitions : List String
  maxIterations : Nat
  deriving DecidableEq, Repr

def Options.default : Options := ⟨false, true, true, false, false, false, "", [], 0⟩

inductive Command where
  | overview
  | resolve
  | deps
  deriving DecidableEq, Repr

def Command.ofName? (name : String) : Option Command :=
  if name == "resolve" then some .resolve
  else if name == "deps" then some .deps
  else none

structure OptionRule where
  name : String
  short : Option Char
  isSwitch : Bool
  set? : String → Options → Option Options

namespace OptionRule

def readBool? (s : String) : Option Bool :=
  if ["1", "t", "T", "true", "TRUE", "True"].contains s then some true
  else if ["0", "f", "F", "false", "FALSE", "False"].contains s then some false
  else none

def switch (name : String) (short : Option Char) (set : Bool → Options → Options) : OptionRule :=
  ⟨name, short, true, fun s o => (readBool? s).map (set · o)⟩

def common : List OptionRule :=
  [switch "verbose" (some 'v') fun b o => { o with verbose := b },
    switch "no-simplify" none fun b o => { o with simplify := !b },
    switch "no-colour" none fun b o => { o with colour := !b },
    ⟨"config", none, false, fun s o => some { o with configFile := s }⟩,
    ⟨"define", some 'D', false, fun s o => some { o with definitions := o.definitions ++ [s] }⟩,
    ⟨"max-iterations", none, false,
      fun s o => (Decimal.readNat? s.toList).map fun n => { o with maxIterations := n }⟩]

def known : Command → List OptionRule
  | .overview => switch "version" none (fun b o => { o with version := b }) :: common
  | .resolve => common
  | .deps => switch "all" none (fun b o => { o with all := b }) :: common

def ofCommand (c : Command) : List OptionRule :=
  switch "help" (some 'h') (fun b o => { o with help := b }) :: known c

def long? (rules : List OptionRule) (name : String) : Option OptionRule :=
  rules.find? (·.name == name)

def short? (rules : List OptionRule) (c : Char) : Option OptionRule :=
  rules.find? (·.short == some c)

end OptionRule

namespace CommandLine

def isOption (s : String) : Bool := s.toList.head? == some '-'

def isSwitch (rule : Option OptionRule) : Bool := (rule.map (·.isSwitch)).getD false

def takesNext (rules : List OptionRule) (s : String) : Bool :=
  if s.toList.contains '=' then false
  else match s.toList with
    | '-' :: '-' :: name => !isSwitch (OptionRule.long? rules (String.ofList name))
    | ['-', c] => c.toNat < 128 && !isSwitch (OptionRule.short? rules c)
    | _ => false

def plainWords (rules : List OptionRule) : List String → List String
  | [] => []
  | s :: rest =>
    if s == "--" then []
    else if takesNext rules s then
      match rest with
      | _ :: next :: rest => plainWords rules (next :: rest)
      | _ => []
    else if s != "" && !isOption s then s :: plainWords rules rest
    else plainWords rules rest

def withoutWord (rules : List OptionRule) (x : String) : List String → List String
  | [] => []
  | s :: rest =>
    if s == "--" then s :: rest
    else if takesNext rules s then
      match rest with
      | v :: rest => s :: v :: withoutWord rules x rest
      | [] => [s]
    else if !isOption s && s == x then rest
    else s :: withoutWord rules x rest

def isOverview (args : List String) : Bool := (plainWords (OptionRule.known .overview) args).isEmpty

def command (args : List String) : Command × List String :=
  let rules := OptionRule.known .overview
  match plainWords rules args with
  | [] => (.overview, args)
  | name :: _ =>
    match Command.ofName? name with
    | some c => (c, withoutWord rules name args)
    | none => (.overview, args)

def isTestFlag (cs : List Char) : Bool := ['t', 'e', 's', 't', '.'].isPrefixOf cs

def readShorts (rules : List OptionRule) (rest : List String) (o : Options) :
    List Char → Option (Options × List String)
  | [] => some (o, rest)
  | c :: cs =>
    if isTestFlag (c :: cs) then some (o, rest)
    else match OptionRule.short? rules c with
    | none => none
    | some rule =>
      match cs with
      | '=' :: v :: vs => (rule.set? (String.ofList (v :: vs)) o).map (·, rest)
      | cs =>
        if rule.isSwitch then
          match rule.set? "true" o with
          | some o => readShorts rules rest o cs
          | none => none
        else if !cs.isEmpty then (rule.set? (String.ofList cs) o).map (·, rest)
        else match rest with
          | v :: rest => (rule.set? v o).map (·, rest)
          | [] => none

def readLong (rules : List OptionRule) (rest : List String) (o : Options) (cs : List Char) :
    Option (Options × List String) :=
  let name := cs.takeWhile (· != '=')
  match OptionRule.long? rules (String.ofList name), cs.dropWhile (· != '=') with
  | none, _ => none
  | some rule, _ :: v => (rule.set? (String.ofList v) o).map (·, rest)
  | some rule, [] =>
    if rule.isSwitch then (rule.set? "true" o).map (·, rest)
    else match rest with
      | v :: rest => (rule.set? v o).map (·, rest)
      | [] => none

def readFuel (rules : List OptionRule) :
    Nat → Options → List String → Option (Options × List String)
  | 0, o, args => some (o, args)
  | _, o, [] => some (o, [])
  | fuel + 1, o, s :: rest =>
    let shifted := match s.toList with
      | ['-', '-'] => some (o, [])
      | '-' :: '-' :: cs => readLong rules rest o cs
      | '-' :: c :: cs => readShorts rules rest o (c :: cs)
      | _ => some (o, rest)
    match shifted with
    | none => none
    | some (o, next) =>
      if s == "--" then some (o, rest)
      else
        let plain := if isOption s && s != "-" then [] else [s]
        (readFuel rules fuel o next).map fun (o, words) => (o, plain ++ words)

def read (c : Command) (args : List String) : Option (Options × List String) :=
  readFuel (OptionRule.ofCommand c) args.length Options.default args

end CommandLine
end Analog
