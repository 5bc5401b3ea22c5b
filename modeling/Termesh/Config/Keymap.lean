import Termesh.Core.Action
import Termesh.Core.Input
import Termesh.Lib.Table
import Termesh.Lsp.Framing

/-!
# The keymap

* `Keymap`, `bindIn`, `resolve`: what each chord does in each context;
* `parseKey`, `parseChord`: a chord from its text.
-/

namespace Termesh

namespace Config

open Lsp (parseUsize)

/-! ## Bindings -/

abbrev Keymap := Tables.Table (KeyContext × KeyChord) Command

namespace Keymap

/-- `bind_in`. -/
def bindIn (keymap : Keymap) (context : KeyContext) (chord : KeyChord) (command : Command) :
    Keymap :=
  keymap.insert (context, chord) command

/-- The focused context wins over the global one. -/
def resolve (keymap : Keymap) (chord : KeyChord) (context : KeyContext) : Option Command :=
  (keymap.lookup (context, chord)).or (keymap.lookup (.global, chord))

end Keymap

/-! ## Chords -/

/-- A text in quotes. -/
def quoted (text : List Char) : String := "'" ++ String.ofList text ++ "'"

/-- `parse::<u8>`. -/
def parseU8 (text : List Char) : Option UInt8 :=
  (parseUsize text).bind fun n => if n < 256 then some (UInt8.ofNat n) else none

/-- The keys with a name. -/
def namedKey (lower : String) : Option Key :=
  match lower with
  | "enter" => some .enter
  | "esc" => some .esc
  | "escape" => some .esc
  | "tab" => some .tab
  | "backtab" => some .backTab
  | "backspace" => some .backspace
  | "delete" => some .delete
  | "del" => some .delete
  | "up" => some .up
  | "down" => some .down
  | "left" => some .left
  | "right" => some .right
  | "home" => some .home
  | "end" => some .end
  | "pageup" => some .pageUp
  | "pagedown" => some .pageDown
  | "space" => some (.char ' ')
  | _ => none

/-- The function keys. -/
def functionKey (lower : List Char) : Option Key :=
  match lower with
  | 'f' :: digits => (parseU8 digits).map .f
  | _ => none

/-- `parse_key`: the case of a letter stays. -/
def parseKey (text : List Char) : Except String Key :=
  let lower := text.map Char.toLower
  match namedKey (String.ofList lower) with
  | some key => .ok key
  | none =>
    match functionKey lower with
    | some key => .ok key
    | none =>
      match text with
      | [] => .error (quoted text ++ " names no key")
      | [c] => .ok (.char c)
      | _ => .error ("unknown key " ++ quoted text)

/-- The loop over the modifiers in front of the key. -/
def parseMods : List (List Char) → Mods → Except String Mods
  | [], mods => .ok mods
  | part :: parts, mods =>
    match String.ofList (part.map Char.toLower) with
    | "ctrl" => parseMods parts { mods with ctrl := true }
    | "alt" => parseMods parts { mods with alt := true }
    | "shift" => parseMods parts { mods with shift := true }
    | other => .error ("unknown modifier '" ++ other ++ "'")

/-- `parse_chord`. -/
def parseChord (text : String) : Except String KeyChord :=
  let parts := text.toList.splitOn '+'
  match parts.getLast? with
  | none => .error "empty chord"
  | some keyPart =>
    if keyPart = [] then .error (quoted text.toList ++ " names no key")
    else do
      let mods ← parseMods parts.dropLast {}
      let key ← parseKey keyPart
      return { key, mods }

example : (parseChord "CTRL+shift+p").toOption =
    some { key := .char 'p', mods := { ctrl := true, shift := true } } := by decide

end Config

end Termesh
