/-!
# Names in word processing documents

The elements and attributes that have a meaning here. A body holds paragraphs and tables, a
paragraph holds runs, and a run holds texts and breaks. A table has rows of cells, and a cell holds
paragraphs again.

Two attributes are put on elements while a template is processed and taken off again: a mark says
which kind of directive a text is, and an insertion point names a place.
-/

namespace WordTemplate.Word

def body : String := "w:body"
def paragraph : String := "w:p"
def run : String := "w:r"
def text : String := "w:t"
def lineBreak : String := "w:br"
def table : String := "w:tbl"
def row : String := "w:tr"
def cell : String := "w:tc"
def proofError : String := "w:proofErr"
def bookmarkStart : String := "w:bookmarkStart"
def bookmarkEnd : String := "w:bookmarkEnd"

/-- The properties of a drawing; their `id` has to be unique in a document. -/
def drawing : String := "wp:docPr"

/-- The container of a block's content while it is put together. -/
def fragment : String := "ds:fragment"

/-- The attribute by which the kind of a directive is marked. -/
def markAttribute : String := "dsMrk"

/-- The attribute that holds the name of an insertion point. -/
def insertionAttribute : String := "dsIp"

/-- How the names of insertion points at the end of a block begin. -/
def endMark : String := "End_"

/-- The attribute that says whether blanks at the ends of a text count. -/
def spaceAttribute : String := "xml:space"

/-- The kind of a break: of a page or of a column. -/
def breakAttribute : String := "w:type"

end WordTemplate.Word
