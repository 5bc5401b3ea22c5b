/-!
# Keys

* `Key`, `Mods`, `KeyContext`, `KeyChord`: keyboard input, whatever the terminal;
* `KeyChord.isTerminalAmbiguous`: the chords that a keymap may not bind.
-/

namespace Termesh

/-- A logical key. -/
inductive Key where
  | char (c : Char)
  | enter
  | esc
  | tab
  | backTab
  | backspace
  | delete
  | up
  | down
  | left
  | right
  | home
  | «end»
  | pageUp
  | pageDown
  | f (n : UInt8)
deriving DecidableEq, Repr

/-- The modifiers of a chord. -/
structure Mods where
  ctrl : Bool := false
  alt : Bool := false
  shift : Bool := false
deriving DecidableEq, Repr

/-- Where a binding applies. -/
inductive KeyContext where
  | global
  | project
  | editor
  | agent
  | terminal
deriving DecidableEq, Repr

/-- A key with its modifiers. -/
structure KeyChord where
  key : Key
  mods : Mods
deriving DecidableEq, Repr

/-- `is_terminal_ambiguous`. -/
def KeyChord.isTerminalAmbiguous (chord : KeyChord) : Bool :=
  if !chord.mods.ctrl || chord.mods.alt then false
  else
    match chord.key with
    | .char c =>
      if chord.mods.shift then true
      else decide (c ∈ ['i', 'm', 'j', 'h', '[', '\x60', '@', ' '])
    | _ => false

end Termesh
