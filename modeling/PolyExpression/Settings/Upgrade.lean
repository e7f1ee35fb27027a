import PolyExpression.Engine.Messages
import PolyExpression.Settings.Text
import PolyExpression.Text.Utf8

/-!
Settings and engines. Settings are imported into an engine by clearing all its parameters and making each setting
in turn. On the engine's own thread the messages that wait are carried out first and the settings act at once;
from another thread they are posted, and those that find no room are lost. A settings text is brought into the
current form by way of an engine: its comments, then the settings it makes, written anew.
-/

namespace PolyExpression

namespace Engine

/-- The messages that import settings. -/
def importMessages (settings : List (ParameterId × Float)) : List Message :=
  .clear :: settings.map fun entry => .setParameter entry.1 entry.2

/-- Imports settings at once; says how many there are. -/
def importNow (engine : Engine) (text : List Char) : Nat × Engine :=
  let settings := Settings.read text
  (settings.length, (importMessages settings).foldl apply engine.takeMessages)

/-- Posts the import of settings; says how many there are. -/
def importLater (engine : Engine) (text : List Char) : Nat × Engine :=
  let settings := Settings.read text
  (settings.length, engine.offerAll (importMessages settings))

/-- A new engine with imported settings, which do not count as edits. -/
def createWith (config : Configuration) (settings? : Option (List Char)) : Except Error Engine := do
  let engine ← create config
  return match settings? with
    | none => engine
    | some text => (engine.importNow text).2.clearDirty

end Engine

namespace Settings

/-- The lines of a text that are blank or comments. -/
def comments (text : List Char) : List (List Char) := (linesOf text).filter isBlankOrComment

/-- The text in the current form. -/
def upgrade (text : List Char) : Except Error (List Char) := do
  let engine ← Engine.create {}
  let published := (engine.importNow text).2.published
  return (comments text).flatMap (· ++ lineEnd) ++ write published

/-- The text of a settings file, given its bytes if it exists. -/
def ofFile (bytes? : Option (List UInt8)) : Except Error (List Char) :=
  match bytes? with
  | none => .error .fileMissing
  | some bytes =>
      if fileSizeMax < bytes.length then .error (.fileTooLarge bytes.length) else .ok (Text.decodeUtf8 bytes)

/-- What a settings file holds after its upgrade. -/
def upgradeFile (bytes? : Option (List UInt8)) : Except Error (List Char) := do
  upgrade (← ofFile bytes?)

end Settings

end PolyExpression
