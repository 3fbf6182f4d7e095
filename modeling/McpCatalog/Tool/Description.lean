import McpCatalog.Text.Blank
/-!
# Tool descriptions

A tool is described by the comment in front of its method, without the lines that
are directives for other programs.

Results:
* `description_eq`: the description in terms of lines that are split, trimmed,
  filtered and joined again.
-/
namespace McpCatalog.Comment

/-- What a directive line starts with. -/
def directives : List String :=
  ["buf:lint:", "@ignore-comment"]

/-- mirrors core/comments:15-24 -/
def isDirective (line : List Char) : Bool :=
  directives.any fun d => d.toList.isPrefixOf line

/-- The lines of a comment, trimmed, without the directives. -/
def lines (comment : List Char) : List (List Char) :=
  ((comment.splitOn '\n').map Text.trim).filter fun line => !isDirective line

/-- The comment as the description of a tool.
mirrors core/comments:19-26 (`clean_comment`) -/
def description (comment : String) : String :=
  String.ofList (['\n'].intercalate (lines comment.toList))

theorem description_eq (comment : String) :
    (description comment).toList = ['\n'].intercalate (lines comment.toList) := by
  simp [description]

end McpCatalog.Comment
