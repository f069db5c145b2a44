import Coins.Fix.Fields
import Coins.Fix.Frame
import Coins.Fix.Main
import Coins.Fix.Parse
import Coins.Fix.Print
import Coins.Fix.Reads
import Coins.Fix.Render
import Coins.Fix.Session
import Coins.Lib.Bits
import Coins.Lib.Cursor
import Coins.Lib.Decoder
import Coins.Lib.Endian
import Coins.Lib.Forest
import Coins.Lib.History
import Coins.Lib.Huffman
import Coins.Lib.Lines
import Coins.Lib.Marks
import Coins.Lib.Memory
import Coins.Lib.Numeral
import Coins.Lib.Pieces
import Coins.Lib.Questions
import Coins.Lib.Search
import Coins.Lib.Transducer
import Coins.Quotes.Bitfin2b
import Coins.Quotes.Book
import Coins.Quotes.Btcc2b
import Coins.Quotes.Btsp2b
import Coins.Quotes.Cex2b
import Coins.Quotes.Channels
import Coins.Quotes.Coalesced
import Coins.Quotes.Coin2b
import Coins.Quotes.Contracts
import Coins.Quotes.Events
import Coins.Quotes.FixLine
import Coins.Quotes.Hash
import Coins.Quotes.Hit2b
import Coins.Quotes.Inside
import Coins.Quotes.Jsmn
import Coins.Quotes.Lengths
import Coins.Quotes.MarketData
import Coins.Quotes.Ok2b
import Coins.Quotes.OrderBooks
import Coins.Quotes.Plx2b
import Coins.Quotes.Prices
import Coins.Quotes.Records
import Coins.Quotes.Refresh
import Coins.Quotes.Sent
import Coins.Quotes.Sentinel
import Coins.Quotes.Skipped
import Coins.Quotes.Stamp
import Coins.Quotes.Subscriptions
import Coins.Quotes.Times
import Coins.Quotes.Tokens
import Coins.Quotes.Trades
import Coins.Quotes.Truncated
import Coins.Quotes.Views
import Coins.RecvBounds
import Coins.Rest.Bounds
import Coins.Rest.Chunked
import Coins.Rest.Header
import Coins.Rest.Length
import Coins.Rest.Reads
import Coins.Rest.Recv
import Coins.Rest.Requests
import Coins.Snarf.Activity
import Coins.Snarf.Agree
import Coins.Snarf.Bounds
import Coins.Snarf.Calls
import Coins.Snarf.Control
import Coins.Snarf.Embedded
import Coins.Snarf.Failure
import Coins.Snarf.Handles
import Coins.Snarf.Inflate
import Coins.Snarf.Inflating
import Coins.Snarf.Interrupt
import Coins.Snarf.JoinFile
import Coins.Snarf.Lines
import Coins.Snarf.Log
import Coins.Snarf.Massage
import Coins.Snarf.Pending
import Coins.Snarf.Slot
import Coins.Snarf.Timed
import Coins.Snarf.Waits
import Coins.Snarf.Whole
import Coins.Tinf.Blocks
import Coins.Tinf.Build
import Coins.Tinf.Deflate
import Coins.Tinf.Dynamic
import Coins.Tinf.Images
import Coins.Tinf.Inflate
import Coins.Tinf.Reader
import Coins.Tinf.Trees
import Coins.Tinf.Uncompress
import Coins.Ws.Bounds
import Coins.Ws.Breaks
import Coins.Ws.Cursors
import Coins.Ws.Dial
import Coins.Ws.Frame
import Coins.Ws.Handle
import Coins.Ws.Init
import Coins.Ws.Open
import Coins.Ws.Pongs
import Coins.Ws.Recv
import Coins.Ws.Segmentation
import Coins.Ws.Send
import Coins.Ws.Sioi
import Coins.Ws.Stream
import Coins.Ws.Withheld
import Coins.Xmemmem
import Coins.Xmemmem.Pointers
import Coins.Quotes.Documents
import Coins.Quotes.Orders
import Coins.Quotes.Transcripts
