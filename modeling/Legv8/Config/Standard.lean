import Legv8.Config.Json
import Legv8.Json.Standard

/-!
# Configurations in the standard codec

What the program reads a configuration with, and what it is shown as.
-/
namespace Legv8.Config

def parse (text : String) : Except ConfigError Config := read .standard text

def parseFile (path : String) (bytes : Except ReadError ByteArray) : Except ConfigError Config :=
  readFile .standard path bytes

def toJson (c : Config) : Json := (form .standard).write c

end Legv8.Config
