import IndimailMta.Lib.Run
import IndimailMta.Send.Slots
import IndimailMta.Send.ChannelFile
import IndimailMta.Send.Retry
import IndimailMta.Send.Paragraphs
import IndimailMta.Send.Wakeup
import IndimailMta.Queue.Commit
import IndimailMta.Queue.Handover
import IndimailMta.Smtpd.Envelope
import IndimailMta.Smtpd.Relay
import IndimailMta.Spawn.Commands
import IndimailMta.Spawn.Status
import IndimailMta.Smtpd.Transfer
import IndimailMta.Qmqp.RoundTrip
import IndimailMta.Qmtp.RoundTrip
import IndimailMta.Dkim.Alone
import IndimailMta.Supervise.Visible
import IndimailMta.Qscheduler.Steps
import IndimailMta.Daned.Answers
import IndimailMta.QueueFix.Fixed
import IndimailMta.Tcprules.Meaning
import IndimailMta.Clean.Requests
import IndimailMta.PrioqQueues
import IndimailMta.Remote.Tcpto
import IndimailMta.Rate
import IndimailMta.RateFiles
import IndimailMta.RateRecords
import IndimailMta.Smtpd.Parms
import IndimailMta.Queue.Archive
import IndimailMta.DomainToken
import IndimailMta.Todo.Process
import IndimailMta.Smtpd.Batv
import IndimailMta.Quote
import IndimailMta.Smtpd.Hops
import IndimailMta.Smtpd.SizeLimit
import IndimailMta.Smtpd.Lists
import IndimailMta.Smtpd.Contents
import IndimailMta.Smtpd.Setup
import IndimailMta.Remote.Lookahead
import IndimailMta.Remote.Replies
import IndimailMta.Remote.Utf8Need
import IndimailMta.Smtpd.MailAcl
import IndimailMta.Smtpd.Recipients
import IndimailMta.Access.Hostaccess
import IndimailMta.Environment.Envrules
import IndimailMta.Greyd.White
import IndimailMta.Cidr
import IndimailMta.Spf.Addresses
import IndimailMta.Lib.Splits
import IndimailMta.Fastforward
import IndimailMta.Local.Mailfile
import IndimailMta.Local.DotQmailBranches
import IndimailMta.Local.MaildirSafe
import IndimailMta.Dkim.Limits
import IndimailMta.Dns.Inside
import IndimailMta.Dns.Blocks
import IndimailMta.Matchup.Cut
import IndimailMta.Multilog.Selected
import IndimailMta.Multilog.Sessions
import IndimailMta.Resolver.Text
import IndimailMta.Resolver.Answers
import IndimailMta.Resolver.Queries
import IndimailMta.Resolver.Replies
import IndimailMta.Resolver.Written
import IndimailMta.Spf.Macros
import IndimailMta.Spf.Expansion
import IndimailMta.Spf.MacroTexts
import IndimailMta.Users.Assign
import IndimailMta.Users.Lookup
import IndimailMta.Dkim.BodyHash
import IndimailMta.Dkim.HeaderHash
import IndimailMta.Srs.Setup
import IndimailMta.Srs.Chain
