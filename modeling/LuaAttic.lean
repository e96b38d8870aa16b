import LuaAttic.Support.Program
import LuaAttic.Support.Run
import LuaAttic.Support.CommandLog
import LuaAttic.Lua.Basic
import LuaAttic.Codedit.Str
import LuaAttic.Codedit.Lines
import LuaAttic.Codedit.Buffer
import LuaAttic.Codedit.Commands
import LuaAttic.Codedit.UndoLog
import LuaAttic.Codedit.Positions
import LuaAttic.Codedit.LineEdits
import LuaAttic.Codedit.WellFormed
import LuaAttic.Codedit.Undo
import LuaAttic.Support.History
import LuaAttic.Codedit.Session
import LuaAttic.Codedit.UndoRedo
import LuaAttic.Codedit.Changed
import LuaAttic.Codedit.Insert
import LuaAttic.Codedit.Cursor
import LuaAttic.Codedit.Editor
import LuaAttic.Codedit.Landing
import LuaAttic.Codedit.ValidRuns
import LuaAttic.RingBuffer.Algorithm
import LuaAttic.RingBuffer.Arcs
import LuaAttic.Support.Deque
import LuaAttic.RingBuffer.Refinement
import LuaAttic.RingBuffer.Queue
import LuaAttic.Codedit.Recording
import LuaAttic.RingBuffer.Growth
import LuaAttic.RingBuffer.ValueQueue
import LuaAttic.RingBuffer.Unidirectional
import LuaAttic.Terra.Basic
import LuaAttic.Layerlib.BoolBitmap
import LuaAttic.Layerlib.GridAutopos
import LuaAttic.Layerlib.GridPlacement
import LuaAttic.Utf8.Cover
import LuaAttic.Layerlib.Layers
import LuaAttic.Layerlib.Linewrap
import LuaAttic.Layerlib.Solvers
import LuaAttic.Layerlib.TwoAxis
import LuaAttic.Layerlib.Passes
import LuaAttic.Layerlib.Transpose
import LuaAttic.Layerlib.MinSizes
import LuaAttic.Layerlib.AxisSymmetry
import LuaAttic.Layerlib.LayerStore
import LuaAttic.Layerlib.LayerTreeIntegrity
import LuaAttic.Lua.Chars
import LuaAttic.Lua.Pattern
import LuaAttic.Http.Readbuffer
import LuaAttic.Http.Chunking
import LuaAttic.Http.Socketreader
import LuaAttic.Http.Timeouts
import LuaAttic.Socketloop.Closing
import LuaAttic.Socketloop.Waiters
import LuaAttic.Http.Chunked
import LuaAttic.Lua.Glue
import LuaAttic.Support.Iteration
import LuaAttic.Lua.Gsplit
import LuaAttic.Http.Uri
import LuaAttic.Http.Percent
import LuaAttic.Http.UriAuthority
import LuaAttic.Http.UriQuery
import LuaAttic.Http.HeaderTokens
import LuaAttic.Http.Headers
import LuaAttic.Http.HeadersTotal
import LuaAttic.Support.Ranges
import LuaAttic.Http.TokenRanges
import LuaAttic.Query.Query
import LuaAttic.Lua.Gsub
import LuaAttic.Support.Dfs
import LuaAttic.Support.Schedule
import LuaAttic.Varlinker.Linker
import LuaAttic.Varlinker.Propagation
import LuaAttic.Varlinker.Diamonds
import LuaAttic.Iterators.Tee
import LuaAttic.Iterators.TeeFaithful
import LuaAttic.Sokoban.Boxes
import LuaAttic.Sokoban.Play
import LuaAttic.Sokoban.Loading
import LuaAttic.Sokoban.Rules
import LuaAttic.Tar.Headers
import LuaAttic.Lua.Tables
import LuaAttic.Terra.Classes
import LuaAttic.Terra.Vtables
import LuaAttic.Terra.Dispatch
import LuaAttic.Terra.Chains
import LuaAttic.Terra.Nesting
import LuaAttic.Support.Buffers
import LuaAttic.Terra.Strtable
import LuaAttic.Support.Mixing
import LuaAttic.Terra.Murmur
import LuaAttic.Mmap.System
import LuaAttic.Mmap.Leaks
import LuaAttic.Mmap.Alignment
import LuaAttic.Mmap.Positions
import LuaAttic.Varlinker.Fields
import LuaAttic.Varlinker.Runs
import LuaAttic.PathEditor.Editor
import LuaAttic.PathEditor.Links
import LuaAttic.PathEditor.Building
import LuaAttic.PathEditor.Commands
import LuaAttic.PathEditor.Paths
import LuaAttic.PathEditor.Edits
import LuaAttic.PathConvert.Convert
import LuaAttic.PathConvert.Shapes
import LuaAttic.PathConvert.Steps
import LuaAttic.PathConvert.Runs
import LuaAttic.PathTime.GlobalTime
import LuaAttic.Codedit.Remove
import LuaAttic.Codedit.InsertRemove
import LuaAttic.Codedit.Tabs
import LuaAttic.Codedit.HitTesting
import LuaAttic.Codedit.Vertical
import LuaAttic.Codedit.Chars
import LuaAttic.Codedit.WordBreaks
import LuaAttic.Codedit.MoveLines
import LuaAttic.Codedit.Tokens
import LuaAttic.Codedit.Projection
import LuaAttic.Codedit.Tabstops
import LuaAttic.Codedit.Backspace
import LuaAttic.Codedit.Normal
import LuaAttic.Codedit.Normalizing
import LuaAttic.Codedit.Reflow
import LuaAttic.Support.LineBreaking
import LuaAttic.Codedit.Greedy
import LuaAttic.Codedit.Justify
import LuaAttic.Support.Cutting
import LuaAttic.Support.Extended
import LuaAttic.Codedit.Paragraphs
import LuaAttic.Codedit.Preserving
import LuaAttic.Layerlib.BitmapCells
import LuaAttic.Layerlib.GridNegatives
import LuaAttic.Layerlib.Stretch
import LuaAttic.Layerlib.Border
import LuaAttic.Layerlib.GridWidths
import LuaAttic.Bitmask.Bitarray
import LuaAttic.Bitmask.Rect
import LuaAttic.Bitmask.Rows
import LuaAttic.Bitmask.RowRuns
import LuaAttic.Bitmask.TerraBitmask
import LuaAttic.Bitmask.TerraRuns
import LuaAttic.Support.LeadWords
import LuaAttic.Utf8.Validity
import LuaAttic.Utf8.ValidIndices
import LuaAttic.Utf8.Reverse
import LuaAttic.Utf8.Resync
import LuaAttic.Utf8.Sanitize
import LuaAttic.Utf8.Substrings
import LuaAttic.Support.Squeeze
import LuaAttic.Http.HeaderText
import LuaAttic.Http.WriteHeaders
import LuaAttic.Sokoban.Completion
import LuaAttic.Sqlparser.Tokens
import LuaAttic.Sqlparser.Tiling
import LuaAttic.Luaize.Flags
import LuaAttic.Luaize.BitmaskClass
import LuaAttic.Luaize.FlagBits
import LuaAttic.Support.Sorting
import LuaAttic.Serialization.Pp2
import LuaAttic.Serialization.KeyOrder
import LuaAttic.Serialization.Cycles
import LuaAttic.Support.RobinHood
import LuaAttic.Ctable.Ctable
import LuaAttic.Ctable.Slots
import LuaAttic.Ctable.Invariant
import LuaAttic.Ctable.Operations
import LuaAttic.Ctable.Refinement
import LuaAttic.Ctable.Traversal
import LuaAttic.Pratt.Pratt
import LuaAttic.Support.Topological
import LuaAttic.DepOrder.Tsort
import LuaAttic.DepOrder.DepOrder
import LuaAttic.Support.LinearProbing
import LuaAttic.Terra.Hashmap2
import LuaAttic.Terra.Backshift
import LuaAttic.Terra.Utf8lib
import LuaAttic.Http.Messages
