import Etoile.CoreObject.COGroup
import Etoile.CoreObject.COPropertyListFormat
import Etoile.CoreObject.Context
import Etoile.CoreObject.ContextGraph
import Etoile.CoreObject.ContextLog
import Etoile.CoreObject.ContextRestore
import Etoile.CoreObject.ContextRuns
import Etoile.CoreObject.ContextStore
import Etoile.CoreObject.GroupMembership
import Etoile.CoreObject.GroupPropertyLists
import Etoile.CoreObject.GroupTraversals
import Etoile.CoreObject.History
import Etoile.CoreObject.MatchesPredicate
import Etoile.CoreObject.MultiValue
import Etoile.CoreObject.ObjectStore
import Etoile.CoreObject.Playback
import Etoile.CoreObject.Properties
import Etoile.CoreObject.PropertyListOutput
import Etoile.CoreObject.Recording
import Etoile.CoreObject.Undo
import Etoile.CoreObject.VersionLookup
import Etoile.DictionaryReader.StreamLineReader
import Etoile.EScript.Precedence
import Etoile.EtoileFoundation.Constraints
import Etoile.EtoileFoundation.DenotedNames
import Etoile.EtoileFoundation.ETCArray
import Etoile.EtoileFoundation.ETHistory
import Etoile.EtoileFoundation.ETModelDescriptionRepository
import Etoile.EtoileFoundation.LoadingDefinitions
import Etoile.EtoileFoundation.Metamodel
import Etoile.EtoileFoundation.NameResolution
import Etoile.EtoileFoundation.NamedOpposites
import Etoile.EtoileFoundation.Opposites
import Etoile.EtoileFoundation.Ownership
import Etoile.EtoileFoundation.ParentLoops
import Etoile.EtoileFoundation.ResolvedReferences
import Etoile.EtoileFoundation.TypeConformance
import Etoile.EtoileText.ETTextTreeBuilder
import Etoile.EtoileText.Scanning
import Etoile.EtoileText.TextTreeRuns
import Etoile.EtoileThread.CounterWrap
import Etoile.EtoileThread.DeliveredFutures
import Etoile.EtoileThread.ETObjectPipe
import Etoile.EtoileThread.ETThreadProxyReturn
import Etoile.EtoileThread.ETThreadedObject
import Etoile.EtoileThread.MessageRuns
import Etoile.EtoileThread.OrderlyRuns
import Etoile.EtoileThread.PipeLocks
import Etoile.EtoileThread.PipeMoves
import Etoile.EtoileThread.PipeRuns
import Etoile.EtoileThread.Returning
import Etoile.EtoileThread.WakeUps
import Etoile.EtoileXML.Appending
import Etoile.EtoileXML.Chunks
import Etoile.EtoileXML.DocumentRuns
import Etoile.EtoileXML.DocumentTrees
import Etoile.EtoileXML.Documents
import Etoile.EtoileXML.ETXMLParser
import Etoile.EtoileXML.ETXMLWriter
import Etoile.EtoileXML.Escaping
import Etoile.EtoileXML.ParserSafety
import Etoile.EtoileXML.Resuming
import Etoile.EtoileXML.Scanning
import Etoile.EtoileXML.Shifting
import Etoile.EtoileXML.Tags
import Etoile.LanguageKit.Boxing
import Etoile.LanguageKit.CodeGenModule
import Etoile.LanguageKit.Comparisons
import Etoile.LanguageKit.Contexts
import Etoile.LanguageKit.CountingLoops
import Etoile.LanguageKit.IvarLayout
import Etoile.LanguageKit.MethodEncoding
import Etoile.LanguageKit.NonLocalReturn
import Etoile.LanguageKit.Reflection
import Etoile.LanguageKit.SmallInt
import Etoile.LanguageKit.WellFormedCode
import Etoile.Lib.BasicBlocks
import Etoile.Lib.Bytes
import Etoile.Lib.DoublyLinked
import Etoile.Lib.Fairness
import Etoile.Lib.Fold
import Etoile.Lib.Fuel
import Etoile.Lib.Layout
import Etoile.Lib.Links
import Etoile.Lib.Mutex
import Etoile.Lib.Nesting
import Etoile.Lib.Responses
import Etoile.Lib.Ring
import Etoile.Lib.Starts
import Etoile.Lib.Streams
import Etoile.Lib.Timeline
import Etoile.Lib.Union
import Etoile.Lib.VarInt
import Etoile.Lucene.BitVector
import Etoile.Lucene.CodeParser
import Etoile.Lucene.CompoundFile
import Etoile.Lucene.Deletions
import Etoile.Lucene.DirectoryCopy
import Etoile.Lucene.DirectoryStreams
import Etoile.Lucene.FilteredTermEnumerator
import Etoile.Lucene.FuzzyTermEnumerator
import Etoile.Lucene.Hits
import Etoile.Lucene.IndexModifier
import Etoile.Lucene.IndexSearcher
import Etoile.Lucene.IndexWriter
import Etoile.Lucene.Interchange
import Etoile.Lucene.MultiNorms
import Etoile.Lucene.MultiReader
import Etoile.Lucene.MultiTermDocuments
import Etoile.Lucene.MultiTermEnumerator
import Etoile.Lucene.MultipleTermPositions
import Etoile.Lucene.NormRuns
import Etoile.Lucene.Norms
import Etoile.Lucene.NormsCommit
import Etoile.Lucene.OpenReader
import Etoile.Lucene.PriorityQueue
import Etoile.Lucene.PriorityQueueRuns
import Etoile.Lucene.QueryHandler
import Etoile.Lucene.QueryParsing
import Etoile.Lucene.RangeQuery
import Etoile.Lucene.RewrittenQuery
import Etoile.Lucene.SegmentMerger
import Etoile.Lucene.SegmentReader
import Etoile.Lucene.SegmentTermEnumerator
import Etoile.Lucene.SkipRuns
import Etoile.Lucene.SmallFloat
import Etoile.Lucene.StoredDocuments
import Etoile.Lucene.StreamValues
import Etoile.Lucene.Streams
import Etoile.Lucene.Term
import Etoile.Lucene.TermDictionary
import Etoile.Lucene.TermDocuments
import Etoile.Lucene.TermInfosReader
import Etoile.Lucene.TermInfosWriter
import Etoile.Lucene.TermUnion
import Etoile.Lucene.TermVectorReader
import Etoile.Lucene.TokenHandler
import Etoile.Lucene.TopDocCollector
import Etoile.Lucene.WildcardTermEnumerator
import Etoile.Serialize.BinaryBackend
import Etoile.Serialize.ConsumedTypes
import Etoile.Serialize.ESCORefTable
import Etoile.Serialize.ESProxy
import Etoile.Serialize.ETObjectStore
import Etoile.Serialize.ETVarint
import Etoile.Serialize.LayoutAgreement
import Etoile.Serialize.StableReferences
import Etoile.Serialize.TypeCodes
import Etoile.Serialize.TypeEncoding
import Etoile.Serialize.TypeFits
import Etoile.Serialize.TypeReplay
import Etoile.Serialize.TypeWalks
import Etoile.Serialize.VarintStreams
import Etoile.TermX.Resizing
import Etoile.TermX.UpdateText
import Etoile.XMPP.Buffering
import Etoile.XMPP.JabberID
import Etoile.XMPP.Login
import Etoile.XMPP.RosterRuns
