/-
Reading a tree of files from JSON.

Each file is an object with its `path` and its `text`; a Python file also has its statements as
`ast`, which are `null` if the text is ill formed.  A path that ends in a slash is a directory.
-/
import FlowTyping.FileTree.Basic
import FlowTyping.Json.Reader
import FlowTyping.Parse.Json

namespace FlowTyping

def SourceText.ofJson? (text : String) : Option Json → Option SourceText
  | none | some .null => some ⟨text, none⟩
  | some tree => (Parse.ofJson? tree).map fun statements => ⟨text, some statements⟩

namespace FileTree

def addJson? (t : FileTree) (entry : Json) : Option FileTree := do
  let path ← (entry.get? "path").bind Json.asString?
  if path.endsWith "/" then return t.addDirectory path
  let text ← (entry.get? "text").bind Json.asString?
  return t.addFile path (← SourceText.ofJson? text (entry.get? "ast"))

def ofJson? (title : String) (files : Json) : Option FileTree := do
  (← files.asList? some).foldlM addJson? (empty title)

end FileTree

end FlowTyping
