/-!
# LuaHost.Text.Separated

Texts joined by a separator that stands between neighbours and nowhere else.
-/

namespace LuaHost

def separated (separator : String) : List String → String
  | [] => ""
  | [text] => text
  | text :: rest => text ++ separator ++ separated separator rest

end LuaHost
