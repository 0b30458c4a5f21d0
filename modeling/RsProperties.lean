import RsProperties.PropertyArea.Invariant
import RsProperties.Seqlock.Reads
import RsProperties.InfoTrie.LongestMatch
import RsProperties.Store.AllOrNothing
import RsProperties.Service.Client
import RsProperties.Service.Linearize
import RsProperties.Store.ContextNodes
import RsProperties.PropertyArea.UpdateCounter
import RsProperties.Service.Answers
import RsProperties.Seqlock.Watcher
import RsProperties.PropertyArea.Space
import RsProperties.InfoTrie.Order
import RsProperties.Store.WriterLock
import RsProperties.Store.GlobalWait
import RsProperties.Service.Init
import RsProperties.Publish.Protocol
import RsProperties.Shared.Protocol
import RsProperties.Shared.Contents
import RsProperties.Shared.World
import RsProperties.Shared.Gets
import RsProperties.Shared.Progress
import RsProperties.Shared.Linearize
import RsProperties.Store.Registry
import RsProperties.Store.Opening
import RsProperties.Service.Exchange
import RsProperties.Service.Routing
import RsProperties.PropFiles.LineSplit
import RsProperties.PropFiles.ImportPath
import RsProperties.PropertyArea.NameGrammar
import RsProperties.InfoTrie.ArenaRuns
import RsProperties.Service.Send
import RsProperties.Store.Directories
import RsProperties.PropFiles.Inline
import RsProperties.Corruption.Images
