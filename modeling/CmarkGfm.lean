import CmarkGfm.Library.Regex
import CmarkGfm.Bytes
import CmarkGfm.Utf8
import CmarkGfm.Houdini
import CmarkGfm.Scanners
import CmarkGfm.Library.Search
import CmarkGfm.Library.LinkedForest
import CmarkGfm.Map
import CmarkGfm.Node.Types
import CmarkGfm.Node.Tree
import CmarkGfm.Parser.State
import CmarkGfm.Node.Links
import CmarkGfm.Inlines.Basic
import CmarkGfm.Inlines.Backticks
import CmarkGfm.Inlines.Delimiters
import CmarkGfm.Extensions.Strikethrough
import CmarkGfm.Inlines.Brackets
import CmarkGfm.Inlines.Parse
import CmarkGfm.Inlines.References
import CmarkGfm.Blocks.Store
import CmarkGfm.Blocks.Scan
import CmarkGfm.Blocks.Finalize
import CmarkGfm.Blocks.Open
import CmarkGfm.Blocks.Process
import CmarkGfm.Parser.Feed
import CmarkGfm.Parser.Document
import CmarkGfm.Render.Escape
import CmarkGfm.Render.Traversal
import CmarkGfm.Render.Html
import CmarkGfm.Render.Render
import CmarkGfm.Render.Man
import CmarkGfm.Properties.ReferenceMap
import CmarkGfm.Properties.Chunking
import CmarkGfm.Properties.Backticks
import CmarkGfm.Properties.TreeLinks
import CmarkGfm.Properties.Containment
import CmarkGfm.Properties.Reuse
import CmarkGfm.Properties.BlockFrames
import CmarkGfm.Properties.Definitions
import CmarkGfm.Properties.InlineFrames
import CmarkGfm.Properties.Expansion
import CmarkGfm.Properties.CloseBracket
import CmarkGfm.Library.Numbering
import CmarkGfm.Library.Markup
import CmarkGfm.Properties.Trees
import CmarkGfm.Properties.Footnotes
import CmarkGfm.Properties.BackReferences
import CmarkGfm.Properties.BlockTree
import CmarkGfm.Properties.OpenBlocks
import CmarkGfm.Properties.InlineTrees
import CmarkGfm.Properties.DocumentTrees
import CmarkGfm.Properties.HtmlPointers
import CmarkGfm.Properties.BlockSteps
import CmarkGfm.Properties.RenderedTrees
import CmarkGfm.Properties.HtmlNesting
import CmarkGfm.Properties.HtmlSafety
import CmarkGfm.Properties.Progress
import CmarkGfm.Properties.Siblings
import CmarkGfm.Properties.EmphasisSteps
import CmarkGfm.Properties.InlineLayout
import CmarkGfm.Properties.InlineRuns
import CmarkGfm.Properties.BlockOptions
import CmarkGfm.Properties.LineColumns
import CmarkGfm.Properties.SourcePositions
import CmarkGfm.Properties.PreservedText
import CmarkGfm.Properties.RenderRuns
import CmarkGfm.Properties.ManLines
import CmarkGfm.Properties.CodeFences
import CmarkGfm.Properties.ReferenceDefinitions
import CmarkGfm.Properties.Utf8Repair
import CmarkGfm.Properties.EntityText
import CmarkGfm.Properties.EntitySearch
import CmarkGfm.Properties.EndColumns
import CmarkGfm.Properties.NoteLinks
import CmarkGfm.Properties.NoteIds
import CmarkGfm.Library.OrderedTree
import CmarkGfm.Node.Iterator
import CmarkGfm.Properties.IteratorEvents
import CmarkGfm.Properties.SafeDeletion
import CmarkGfm.Properties.TextConsolidation
import CmarkGfm.Render.Commonmark
import CmarkGfm.Library.Utf8
import CmarkGfm.Properties.Escaping
import CmarkGfm.Properties.AutolinkEnd
import CmarkGfm.Properties.AutolinkColumns
import CmarkGfm.Properties.MailLinks
import CmarkGfm.Properties.InlineExtensions
import CmarkGfm.Properties.LinkedText
import CmarkGfm.Properties.AutolinkTexts
import CmarkGfm.Properties.FilteredTags
import CmarkGfm.Properties.PrefixStack
import CmarkGfm.Properties.AutolinkForm
import CmarkGfm.Properties.OneLine
import CmarkGfm.Render.Latex
import CmarkGfm.Properties.EnumLevels
import CmarkGfm.Buffer
import CmarkGfm.Properties.BufferContents
import CmarkGfm.Properties.BufferRuns
import CmarkGfm.Library.SiblingTree
import CmarkGfm.Node.Check
import CmarkGfm.Properties.NodeCheck
import CmarkGfm.Extensions.Tasklist
import CmarkGfm.Properties.OpeningCallbacks
import CmarkGfm.Properties.TaskItems
import CmarkGfm.Library.MarkedStack
import CmarkGfm.Arena
import CmarkGfm.Extensions.TableRow
import CmarkGfm.Properties.RowGrowth
import CmarkGfm.Properties.ArenaBlocks
import CmarkGfm.Node.Own
import CmarkGfm.Properties.Addresses
import CmarkGfm.Properties.OwnedChunks
import CmarkGfm.Properties.NestedLinks
import CmarkGfm.Render.Xml
import CmarkGfm.Properties.RendererTotality
import CmarkGfm.Properties.FootnoteLiterals
import CmarkGfm.Library.Spans
import CmarkGfm.Extensions.Table
import CmarkGfm.Properties.TableRows
import CmarkGfm.Properties.Tables
import CmarkGfm.Render.Tables
import CmarkGfm.Properties.TableHtml
import CmarkGfm.Properties.WrittenTables
import CmarkGfm.Properties.ReadTables
import CmarkGfm.Properties.CommonmarkLines
import CmarkGfm.Properties.RenderedTables
import CmarkGfm.Library.Element
import CmarkGfm.Properties.XmlNesting
import CmarkGfm.Extensions.TableBlocks
import CmarkGfm.Properties.TableBlocks
import CmarkGfm.Properties.TableRuns
import CmarkGfm.Properties.DocumentTables
