/-!
# Escaped text

The readable form of a string: between double quotes, with a backslash before
every backslash and double quote and a newline written as backslash and n.
Backslashes are treated first, so that those put in afterwards stay single.
-/

namespace LexicalEnv.Text

def substitute (c : Char) (text : List Char) (s : List Char) : List Char :=
  s.flatMap fun x => if x = c then text else [x]

theorem substitute_append (c : Char) (text s t : List Char) :
    substitute c text (s ++ t) = substitute c text s ++ substitute c text t := by
  simp [substitute]

def escapedChars (s : List Char) : List Char :=
  substitute '\n' ['\\', 'n'] (substitute '"' ['\\', '"'] (substitute '\\' ['\\', '\\'] s))

theorem escapedChars_append (s t : List Char) :
    escapedChars (s ++ t) = escapedChars s ++ escapedChars t := by
  simp [escapedChars, substitute_append]

def escaped (s : String) : String :=
  String.ofList ('"' :: escapedChars s.toList ++ ['"'])

end LexicalEnv.Text
